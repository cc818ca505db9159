import Extremal.Server.Serve

open Lexicographic

-- A server with a clock in milliseconds. The clock decides which entries of the cache have expired.

def defaultTtl : Nat :=
  30000

def graphTtl : Nat :=
  120000

-- When the entries of the cache were inserted.
structure InsertionTimes where
  thresholds : Int32 → Nat
  cids       : Int32 → Nat
  graphs     : Int32 × Int64 × Int64 → Nat

-- The data layer at a time.
structure Moment where
  time   : Nat
  tables : Store.Tables
  rows   : Rows

-- A response and the time at which it was sent.
structure SentResponse (m : Nat) where
  tx     : Fin m
  time   : Nat
  result : Except ApiError Response

-- `started` has the times of the first turns of the requests, and `history` what the data layer has been like.
structure TimedServer (m : Nat) where
  server    : ServerState m
  now       : Nat
  inserted  : InsertionTimes
  started   : Fin m → Option Nat
  history   : List Moment
  responses : List (SentResponse m)

namespace TimedServer

variable (s : TimedServer m) (i : Fin m)

def moment (now : Nat) (server : ServerState m) : Moment where
  time   := now
  tables := server.tables
  rows   := server.database.committedRows

def init (tables : Store.Tables) (rows : Rows) : TimedServer m where
  server    := .init tables rows
  now       := 0
  inserted  := ⟨fun _ => 0, fun _ => 0, fun _ => 0⟩
  started _ := none
  history   := [moment 0 <| .init (m := m) tables rows]
  responses := []

-- `inserted_at.elapsed() > ttl`
def isExpired : Call → Bool
  | .getThreshold n           => s.now - s.inserted.thresholds n > defaultTtl
  | .getCids n                => s.now - s.inserted.cids n > defaultTtl
  | .getGraphs n limit offset => s.now - s.inserted.graphs (n, limit, offset) > graphTtl
  | _                         => false

def insert : Call → InsertionTimes
  | .setThreshold n _ _         => { s.inserted with thresholds := Function.update s.inserted.thresholds n s.now }
  | .setCids n _                => { s.inserted with cids := Function.update s.inserted.cids n s.now }
  | .setGraphs n limit offset _ =>
    { s.inserted with graphs := Function.update s.inserted.graphs (n, limit, offset) s.now }
  | _ => s.inserted

def respond : Call → List (SentResponse m)
  | .respond result => s.responses ++ [⟨i, s.now, result⟩]
  | _               => s.responses

-- A turn of a request takes no time. The time goes by between the turns.
def perform (i : Fin m) (call : Call) (s : TimedServer m) (choice : Choice) :
    Option (TimedServer m × Option call.Answer) :=
  s.server.perform i call { choice with expired := s.isExpired call } |>.map fun (server, answer) =>
    ({ server
       now       := s.now
       inserted  := s.insert call
       started   := Function.update s.started i <| (s.started i).getD s.now
       history   := s.history ++ [moment s.now server]
       responses := s.respond i call }, answer)

def elapse (s : TimedServer m) (duration : Nat) : Option (TimedServer m) :=
  some { s with
    now     := s.now + duration
    history := s.history ++ [moment (s.now + duration) s.server] }

end TimedServer

abbrev TimedPool (m : Nat) := Pool (Fin m) Call Call.Answer Empty Unit (TimedServer m)

namespace TimedPool

def init (state : AppState) (requests : Fin m → Request) (tables : Store.Tables) (rows : Rows) : TimedPool m where
  shared     := .init tables rows
  programs i := serve state (requests i)

def step (s : TimedPool m) (input : (Fin m × Choice) ⊕ Nat) : Option (TimedPool m) :=
  Pool.stepWith TimedServer.perform TimedServer.elapse s input

end TimedPool
