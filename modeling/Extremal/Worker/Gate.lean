import Extremal.Server.Leaderboard

open Lexicographic

-- What the worker knows about the leaderboard of its `n`.
structure Gate where
  leaderboardFull     : Bool
  thresholdScoreBytes : Option (Word UInt8)

namespace Gate

def init : Gate where
  leaderboardFull     := false
  thresholdScoreBytes := none

-- A failed fetch keeps what the worker knew before.
def sync (hex : Hex) (gate : Gate) (response : Option ThresholdResponse) : Gate :=
  match response with
  | some resp =>
    { leaderboardFull     := resp.count ≥ resp.capacity.toInt
      thresholdScoreBytes := resp.thresholdScoreBytes.bind hex.decode |>.map Word.mk }
  | none => gate

-- The worker skips a discovery with these score bytes.
def drops (gate : Gate) (scoreBytes : Word UInt8) : Bool :=
  gate.leaderboardFull && gate.thresholdScoreBytes.any (scoreBytes ≥ ·)

end Gate
