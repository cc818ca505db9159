import Extremal.Store.Leaderboard
import Extremal.Types.Json

open Lexicographic

inductive StoreError
  | sqlx (message : String)
deriving DecidableEq

namespace Store

structure Identity where
  keyId     : String
  publicKey : String

structure Graph where
  cid    : String
  n      : Int32
  graph6 : List UInt8

structure Score where
  cid        : String
  n          : Int32
  histogram  : Json
  goodmanGap : Float
  autOrder   : Float
  scoreBytes : Word UInt8

structure Submission where
  cid       : String
  keyId     : String
  signature : String
  metadata  : Option Json

structure Receipt where
  cid         : String
  serverKeyId : String
  verdict     : String
  scoreJson   : Option Json
  signature   : String

-- A leaderboard entry joined with its graph.
structure LeaderboardGraphRow where
  rank       : Int32
  cid        : String
  scoreBytes : Word UInt8
  graph6     : List UInt8

-- The tables that are written by single statements.
structure Tables where
  identities  : List Identity
  graphs      : List Graph
  scores      : List Score
  submissions : List Submission
  receipts    : List Receipt

namespace Tables

variable (tables : Tables)

def getIdentity (keyId : String) : Option Identity :=
  tables.identities.find? (·.keyId = keyId)

-- `ON CONFLICT (cid) DO NOTHING`
def storeGraph (graph : Graph) : Tables :=
  if tables.graphs.any (·.cid = graph.cid) then tables
  else { tables with graphs := tables.graphs ++ [graph] }

-- `ON CONFLICT (cid) DO NOTHING`
def storeScore (score : Score) : Tables :=
  if tables.scores.any (·.cid = score.cid) then tables
  else { tables with scores := tables.scores ++ [score] }

def storeSubmission (submission : Submission) : Tables :=
  { tables with submissions := tables.submissions ++ [submission] }

def storeReceipt (receipt : Receipt) : Tables :=
  { tables with receipts := tables.receipts ++ [receipt] }

-- `ROW_NUMBER() OVER (ORDER BY l.score_bytes ASC)` on the board joined with the graphs, then
-- `LIMIT $2 OFFSET $3`.
def getLeaderboardGraphs (rows : Rows) (n : Int32) (scan : Scan) (limit offset : Int64) :
    Except StoreError (List LeaderboardGraphRow) :=
  if limit < 0 then .error <| .sqlx "LIMIT must not be negative"
  else if offset < 0 then .error <| .sqlx "OFFSET must not be negative"
  else
    let entries := (scan.order <| rows.board n).flatMap fun e =>
      tables.graphs.filter (·.cid = e.cid) |>.map fun graph => (e, graph)
    let ranked := entries.insertionSort (·.1.scoreBytes ≤ ·.1.scoreBytes) |>.zipIdx.map fun ((e, graph), i) =>
      { rank := .ofNat (i + 1), cid := e.cid, scoreBytes := e.scoreBytes, graph6 := graph.graph6 }
    .ok <| ranked.drop offset.toInt.toNat |>.take limit.toInt.toNat

end Tables

-- The calls of the data layer.
inductive Query
  | getIdentity (keyId : String)
  | storeGraph (graph : Graph)
  | storeScore (score : Score)
  | storeSubmission (submission : Submission)
  | tryAdmit (n : Int32) (cid keyId : String) (scoreBytes : Word UInt8) (capacity : Int32)
  | storeReceipt (receipt : Receipt)
  | leaderboardCount (n : Int32)
  | leaderboardThreshold (n : Int32)
  | getLeaderboardCids (n : Int32) (since : Option Nat)
  | getLeaderboardGraphs (n : Int32) (limit offset : Int64)

abbrev Query.Answer : Query → Type
  | getIdentity _            => Option Identity
  | storeGraph _             => Unit
  | storeScore _             => Unit
  | storeSubmission _        => Submission
  | tryAdmit _ _ _ _ _       => Option Int32
  | storeReceipt _           => Receipt
  | leaderboardCount _       => Nat
  | leaderboardThreshold _   => Option (Word UInt8)
  | getLeaderboardCids _ _   => List String
  | getLeaderboardGraphs _ _ _ => List LeaderboardGraphRow

end Store
