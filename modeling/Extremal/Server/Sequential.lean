import Extremal.Server.Leaderboard
import Extremal.Server.Submit

-- One request that is handled while no other request is, with a data layer whose calls may fail.

structure Store where
  tables      : Store.Tables
  leaderboard : Leaderboard

-- A call of the data layer either fails without an effect, or its answer gets lost.
inductive Fault
  | none
  | fails (e : StoreError)
  | lost (e : StoreError)

namespace Fault

def error : Fault → Option StoreError
  | none             => .none
  | fails e | lost e => some e

def hasEffect : Fault → Bool
  | none | lost _ => true
  | fails _       => false

end Fault

-- What happens to a request: the faults of its calls, the outcome of the scoring task, the time of its
-- transaction, and the order in which its statements meet the rows.
structure Fate where
  fault : Store.Query → Fault
  task  : Except String Unit
  now   : Nat
  scan  : Scan

namespace Store

variable (fate : Fate)

def answer (query : Query) (s : Store) : Except StoreError query.Answer × Store :=
  match query with
  | .getIdentity keyId => (.ok <| s.tables.getIdentity keyId, s)
  | .storeGraph graph => (.ok (), { s with tables := s.tables.storeGraph graph })
  | .storeScore score => (.ok (), { s with tables := s.tables.storeScore score })
  | .storeSubmission submission => (.ok submission, { s with tables := s.tables.storeSubmission submission })
  | .tryAdmit n cid keyId scoreBytes capacity =>
    let offer : Offer := { n, cid, keyId, scoreBytes, capacity, now := fate.now, scan := fate.scan }
    let (rank, leaderboard) := offer.tryAdmit s.leaderboard
    (.ok rank, { s with leaderboard })
  | .storeReceipt receipt => (.ok receipt, { s with tables := s.tables.storeReceipt receipt })
  | .leaderboardCount n => (.ok <| s.leaderboard.rows.leaderboardCount n, s)
  | .leaderboardThreshold n => (.ok <| s.leaderboard.rows.leaderboardThreshold n fate.scan, s)
  | .getLeaderboardCids n since => (.ok <| s.leaderboard.rows.leaderboardCids n fate.scan since, s)
  | .getLeaderboardGraphs n limit offset =>
    (s.tables.getLeaderboardGraphs s.leaderboard.rows n fate.scan limit offset, s)

-- The cache is not part of the store; here it holds nothing.
def handle (call : Call) (s : Store) : call.Answer × Store :=
  match call with
  | .spawnBlocking => (fate.task, s)
  | .store query =>
    let s' := if (fate.fault query).hasEffect then (s.answer fate query).2 else s
    match (fate.fault query).error with
    | none   => ((s.answer fate query).1, s')
    | some e => (.error e, s')
  | .getThreshold _ | .getCids _ | .getGraphs _ _ _ => (none, s)
  | .setThreshold _ _ _ | .setCids _ _ | .setGraphs _ _ _ _ | .remove _ _ | .respond _ => ((), s)

end Store
