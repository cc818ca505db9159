import Extremal.Server.State

open Lexicographic

def getThreshold (hex : Hex) (rows : Rows) (scan : Scan) (leaderboardCapacity n : Int32) : ThresholdResponse where
  n                   := n
  count               := rows.leaderboardCount n
  capacity            := leaderboardCapacity
  thresholdScoreBytes := rows.leaderboardThreshold n scan |>.map (hex.encode ·.symbols)

namespace Handler

variable (state : AppState) (n : Int32)

def getThreshold : Handler ThresholdResponse := do
  let respond (count : Nat) (threshold : Option (Word UInt8)) : ThresholdResponse :=
    { n, count, capacity := state.leaderboardCapacity, thresholdScoreBytes := threshold.map (state.hex.encode ·.symbols) }
  match ← .perform <| Call.getThreshold n with
  | some (count, threshold) => return respond count threshold
  | none =>
    let count ← store <| .leaderboardCount n
    let threshold ← store <| .leaderboardThreshold n
    .perform <| Call.setThreshold n count threshold
    return respond count threshold

-- Only full syncs are cached.
def getCids (since : Option Nat) : Handler (List String) := do
  match since with
  | some since => store <| .getLeaderboardCids n since
  | none =>
    match ← .perform <| Call.getCids n with
    | some cids => return cids
    | none =>
      let cids ← store <| .getLeaderboardCids n none
      .perform <| Call.setCids n cids
      return cids

def getGraphs (limit offset : Int64) : Handler (List GraphItem) := do
  match ← .perform <| Call.getGraphs n limit offset with
  | some graphs => return graphs
  | none =>
    let rows ← store <| .getLeaderboardGraphs n limit offset
    let graphs := rows.map fun row => { rank := row.rank, cid := row.cid, graph6 := row.graph6 : GraphItem }
    .perform <| Call.setGraphs n limit offset graphs
    return graphs

end Handler
