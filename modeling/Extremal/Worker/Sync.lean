import Extremal.Store.Concurrent
import Extremal.Worker.Engine

-- A worker that follows the board of an `n` by syncing its CIDs, while transactions admit graphs to that
-- board. The server, the database and the worker share one clock.

-- An evaluated query of `get_leaderboard_cids`, together with the CIDs that were on the board then and the
-- transactions that had committed.
structure CidsQuery (m : Nat) where
  cids      : List String
  board     : List String
  committed : Fin m → Bool

-- `synced` is the board that the last answered query has met.
structure CidSync (m : Nat) where
  database : Database m
  clock    : Nat
  worker   : EngineState
  cache    : Option (CidsQuery m)
  answer   : Option (CidsQuery m)
  synced   : List String

inductive SyncMove (m : Nat)
  | tick
  | tryAdmit (move : Move m)
  | query (scan : Scan)
  | cached
  | fillCache (scan : Scan)
  | expireCache
  | sync

namespace CidSync

variable (setup : EngineSetup) (offers : Fin m → Offer) (n : Int32) (s : CidSync m)

def init (config : EngineConfig) (rows : Rows) (clock : Nat) : CidSync m where
  database := .init rows
  clock    := clock
  worker   := .init config
  cache    := none
  answer   := none
  synced   := []

def evaluate (scan : Scan) (since : Option Nat) : CidsQuery m where
  cids      := s.database.committedRows.leaderboardCids n scan since
  board     := s.database.committedRows.board n |>.map (·.cid)
  committed := s.database.isCommitted

-- `admitted_at` is the time at which the transaction has started.
def tryAdmit (move : Move m) : Option (CidSync m) :=
  if s.database.phase move.tx = .idle ∧ (offers move.tx).now ≠ s.clock then none
  else s.database.step offers move |>.map ({ s with database := · })

-- Only the answers to full syncs are cached. Other clients fill the cache, too.
def step (move : SyncMove m) : Option (CidSync m) :=
  match move with
  | .tick       => some { s with clock := s.clock + 1 }
  | .tryAdmit move => s.tryAdmit offers move
  | .query scan =>
    let query := s.evaluate n scan s.worker.cidSyncCursor
    if s.answer.isSome then none
    else some { s with answer := query, cache := if s.worker.cidSyncCursor.isNone then query else s.cache }
  | .cached =>
    if s.answer.isSome ∨ s.worker.cidSyncCursor.isSome ∨ s.cache.isNone then none
    else some { s with answer := s.cache }
  | .fillCache scan => some { s with cache := s.evaluate n scan none }
  | .expireCache    => some { s with cache := none }
  | .sync =>
    s.answer.map fun query =>
      { s with worker := s.worker.syncCids setup query.cids s.clock, answer := none, synced := query.board }

end CidSync
