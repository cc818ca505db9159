import Extremal.Server.Leaderboard
import Extremal.Server.Sequential
import Extremal.Server.Submit
import Extremal.Store.Concurrent

open Lexicographic

-- Requests that a server handles at the same time. Their calls take turns; the statements of `try_admit`
-- interleave, too.

inductive Request
  | submit (req : SubmitRequest)
  | threshold (n : Int32)
  | cids (n : Int32) (since : Option Nat)
  | graphs (n : Int32) (limit offset : Int64)

def Handler.handle (state : AppState) : Request → Handler Response
  | .submit req              => return .submitted <| ← submitGraph state req
  | .threshold n             => return .threshold <| ← getThreshold state n
  | .cids n since            => return .cids <| ← getCids n since
  | .graphs n limit offset   => return .graphs <| ← getGraphs n limit offset

def serve (state : AppState) (request : Request) : Program Call Call.Answer Empty Unit :=
  (Handler.handle state request).attempt fun result => .perform <| Call.respond result

-- A cached value together with the transactions that had committed when it was read from the store.
structure CacheEntry (m : Nat) (α : Type) where
  value : α
  seen  : Fin m → Bool

structure LeaderboardCache (m : Nat) where
  thresholds : Int32 → Option (CacheEntry m (Nat × Option (Word UInt8)))
  cids       : Int32 → Option (CacheEntry m (List String))
  graphs     : Int32 × Int64 × Int64 → Option (CacheEntry m (List GraphItem))

namespace LeaderboardCache

variable (cache : LeaderboardCache m) (n : Int32)

def empty : LeaderboardCache m where
  thresholds _ := none
  cids _       := none
  graphs _     := none

def setThreshold (entry : CacheEntry m (Nat × Option (Word UInt8))) : LeaderboardCache m :=
  { cache with thresholds := Function.update cache.thresholds n entry }

def setCids (entry : CacheEntry m (List String)) : LeaderboardCache m :=
  { cache with cids := Function.update cache.cids n entry }

def setGraphs (limit offset : Int64) (entry : CacheEntry m (List GraphItem)) : LeaderboardCache m :=
  { cache with graphs := Function.update cache.graphs (n, limit, offset) entry }

def remove : CacheMap → LeaderboardCache m
  | .thresholds => { cache with thresholds := Function.update cache.thresholds n none }
  | .cids       => { cache with cids := Function.update cache.cids n none }
  | .graphs     => { cache with graphs := fun key => if key.1 = n then none else cache.graphs key }

end LeaderboardCache

-- What has happened: the entries of a board have been dropped, or a response has been sent. The response
-- comes with the transactions that its data has seen.
inductive TrafficEvent (m : Nat)
  | removed (tx : Fin m) (map : CacheMap) (n : Int32)
  | responded (tx : Fin m) (result : Except ApiError Response) (seen : Fin m → Bool)

-- `seen` has the transactions that had committed before all reads of a request.
structure ServerState (m : Nat) where
  tables   : Store.Tables
  database : Database m
  cache    : LeaderboardCache m
  seen     : Fin m → Fin m → Bool
  log      : List (TrafficEvent m)

-- What the environment decides about a turn.
structure Choice where
  fault   : Fault
  task    : Except String Unit
  now     : Nat
  scan    : Scan
  row     : Nat
  expired : Bool

namespace ServerState

variable (s : ServerState m) (i : Fin m) (choice : Choice)

def init (tables : Store.Tables) (rows : Rows) : ServerState m where
  tables   := tables
  database := .init rows
  cache    := .empty
  seen _ _ := true
  log      := []

-- The request holds data that has seen only some transactions.
def hold (seen : Fin m → Bool) : ServerState m :=
  { s with seen := Function.update s.seen i fun tx => s.seen i tx && seen tx }

-- A turn of a call with an answer of type `α`.
abbrev Turn (m : Nat) (α : Type) := Option (ServerState m × Option α)

def lookup (entry : Option (CacheEntry m α)) : Turn m (Option α) :=
  match entry with
  | none       => some (s, some none)
  | some entry => if choice.expired then some (s, some none) else some (s.hold i entry.seen, some <| some entry.value)

-- A single statement that writes to the tables.
def write (tables : Store.Tables) (answer : α) : Turn m (Except StoreError α) :=
  let s' := if choice.fault.hasEffect then { s with tables } else s
  match choice.fault.error with
  | none   => some (s', some <| .ok answer)
  | some e => some (s', some <| .error e)

-- A single statement that reads the committed rows of the leaderboard.
def read (answer : Rows → Except StoreError α) : Turn m (Except StoreError α) :=
  match choice.fault.error with
  | none   => some (s.hold i s.database.isCommitted, some <| answer s.database.committedRows)
  | some e => some (s, some <| .error e)

-- `try_admit` moves statement by statement and answers once it has committed. If it fails before, it is
-- rolled back.
def tryAdmit (offer : Offer) : Turn m (Except StoreError (Option Int32)) :=
  match s.database.phase i, choice.fault with
  | .committed admitted, .none => some (s, some <| .ok admitted)
  | .committed _, .lost e      => some (s, some <| .error e)
  | .committed _, .fails _     => none
  | _, .none    => s.database.step (fun _ => offer) ⟨i, choice.scan, choice.row⟩ |>.map ({ s with database := · }, none)
  | _, .fails e => some ({ s with database := s.database.rollback i }, some <| .error e)
  | _, .lost _  => none

-- The environment supplies the time at which the transaction has started.
def query (query : Store.Query) : Turn m (Except StoreError query.Answer) :=
  match query with
  | .getIdentity keyId          => s.write choice s.tables <| s.tables.getIdentity keyId
  | .storeGraph graph           => s.write choice (s.tables.storeGraph graph) ()
  | .storeScore score           => s.write choice (s.tables.storeScore score) ()
  | .storeSubmission submission => s.write choice (s.tables.storeSubmission submission) submission
  | .storeReceipt receipt       => s.write choice (s.tables.storeReceipt receipt) receipt
  | .tryAdmit n cid keyId scoreBytes capacity =>
    s.tryAdmit i choice { n, cid, keyId, scoreBytes, capacity, now := choice.now, scan := choice.scan }
  | .leaderboardCount n         => s.read i choice fun rows => .ok <| rows.leaderboardCount n
  | .leaderboardThreshold n     => s.read i choice fun rows => .ok <| rows.leaderboardThreshold n choice.scan
  | .getLeaderboardCids n since => s.read i choice fun rows => .ok <| rows.leaderboardCids n choice.scan since
  | .getLeaderboardGraphs n limit offset =>
    s.read i choice fun rows => s.tables.getLeaderboardGraphs rows n choice.scan limit offset

def perform (i : Fin m) (call : Call) (s : ServerState m) (choice : Choice) : Turn m call.Answer :=
  match call with
  | .spawnBlocking                  => some (s, some choice.task)
  | .store query                    => s.query i choice query
  | .getThreshold n                 => s.lookup i choice <| s.cache.thresholds n
  | .getCids n                      => s.lookup i choice <| s.cache.cids n
  | .getGraphs n limit offset       => s.lookup i choice <| s.cache.graphs (n, limit, offset)
  | .setThreshold n count threshold =>
    some ({ s with cache := s.cache.setThreshold n ⟨(count, threshold), s.seen i⟩ }, some ())
  | .setCids n cids => some ({ s with cache := s.cache.setCids n ⟨cids, s.seen i⟩ }, some ())
  | .setGraphs n limit offset graphs =>
    some ({ s with cache := s.cache.setGraphs n limit offset ⟨graphs, s.seen i⟩ }, some ())
  | .remove map n   => some ({ s with cache := s.cache.remove n map, log := s.log ++ [.removed i map n] }, some ())
  | .respond result => some ({ s with log := s.log ++ [.responded i result (s.seen i)] }, some ())

end ServerState

-- The requests of a server, with what they share.
abbrev Server (m : Nat) := Pool (Fin m) Call Call.Answer Empty Unit (ServerState m)

namespace Server

def init (state : AppState) (requests : Fin m → Request) (tables : Store.Tables) (rows : Rows) : Server m where
  shared     := .init tables rows
  programs i := serve state (requests i)

def step (s : Server m) (turn : Fin m × Choice) : Option (Server m) :=
  Pool.step ServerState.perform s turn

end Server
