import Extremal.Scoring.Automorphism
import Extremal.Strategies.Mirrors
import Extremal.Types.Json

structure SearchJob where
  n          : Nat
  maxIters   : Nat
  initGraph  : Option AdjacencyMatrix
  config     : Json
  knownCids  : Finset GraphCid
  carryState : Option (Finset UInt64)

def SearchJob.targetK (job : SearchJob) : Nat :=
  job.config.getU64 "target_k" 5 % 2 ^ 32

def SearchJob.targetEll (job : SearchJob) : Nat :=
  job.config.getU64 "target_ell" 5 % 2 ^ 32

structure SearchResult where
  bestGraph      : Option AdjacencyMatrix
  valid          : Bool
  iterationsUsed : Nat

structure RawDiscovery where
  graph     : AdjacencyMatrix
  iteration : Nat
deriving DecidableEq

structure ProgressInfo where
  graph            : AdjacencyMatrix
  n                : Nat
  strategy         : String
  iteration        : Nat
  maxIters         : Nat
  valid            : Bool
  violationScore   : Nat
  discoveriesSoFar : Nat

-- A count that a search keeps up to date by increments.
inductive Counter
  | red (k : Nat) (count : UInt64)
  | blue (ell : Nat) (count : UInt64)
  | violations (k ell : Nat) (count : UInt64)

namespace Counter

def count : Counter → UInt64
  | red _ count | blue _ count | violations _ _ count => count

-- The count from scratch.
def recount (m : Mirrors) : Counter → UInt64
  | red k _            => m.red k m.graph.n
  | blue ell _         => m.blue ell m.graph.n
  | violations k ell _ => m.red k m.graph.n + m.blue ell m.graph.n

end Counter

-- What can be observed of the incremental state in the course of a search: the state that is held
-- after an evaluation, a move or a new beam, the argument of each `.max(0)`, the counts that each
-- recount replaces and puts in their place, and the correction of a drifted count.
inductive Event
  | held (m : Mirrors) (counters : List Counter)
  | clamped (count : Int64)
  | recounted (before after : List UInt64)
  | drifted

-- What a search shares with the walks that it starts: the random numbers and the observer's answers
-- still to come, the known CIDs, and what has been reported to the observer so far.
structure Session where
  rng         : Nat → Nat
  cancelled   : Nat → Bool
  knownCids   : Finset GraphCid
  discoveries : List RawDiscovery
  progress    : List ProgressInfo
  events      : List Event

def canonicalCid (lib : Crates) (graph : AdjacencyMatrix) : GraphCid :=
  computeCid lib (canonicalForm lib graph).1

namespace Session

def start (rng : Nat → Nat) (cancelled : Nat → Bool) (knownCids : Finset GraphCid) : Session where
  rng         := rng
  cancelled   := cancelled
  knownCids   := knownCids
  discoveries := []
  progress    := []
  events      := []

def isCancelled (s : Session) : Bool × Session :=
  (s.cancelled 0, { s with cancelled := fun i => s.cancelled (i + 1) })

-- A random number below `bound`.
def genIndex (s : Session) (bound : Nat) : Nat × Session :=
  (s.rng 0 % bound, { s with rng := fun i => s.rng (i + 1) })

-- `gen_bool(0.5)`
def genBool (s : Session) : Bool × Session :=
  let (i, s) := s.genIndex 2
  (i = 1, s)

-- A random pair of a list, which the source unwraps.
def choose (s : Session) (edges : List (Nat × Nat)) : (Nat × Nat) × Session :=
  let (i, s) := s.genIndex edges.length
  (edges.getD i (0, 0), s)

def swap (l : List Nat) (i j : Nat) : List Nat :=
  (l.set i (l.getD j 0)).set j (l.getD i 0)

-- Durstenfeld's shuffle, stopped after `amount` elements. The selected elements are the last ones.
def partialShuffle (s : Session) (l : List Nat) (amount : Nat) : List Nat × Session :=
  let first := l.length - amount
  let lock (ls : List Nat × Session) (i : Nat) :=
    let (j, s) := ls.2.genIndex (i + 1)
    (swap ls.1 i j, s)
  let (l, s) := (List.range' first (l.length - first)).reverse.foldl lock (l, s)
  (l.drop first, s)

-- Reports a graph unless its canonical CID is known. The flag says whether the graph was new.
def report (lib : Crates) (s : Session) (graph : AdjacencyMatrix) (iteration : Nat) : Bool × Session :=
  let cid := canonicalCid lib graph
  if cid ∈ s.knownCids then (false, s)
  else (true, { s with
    knownCids   := insert cid s.knownCids
    discoveries := s.discoveries ++ [{ graph, iteration }] })

def reportProgress (s : Session) (info : ProgressInfo) : Session :=
  { s with progress := s.progress ++ [info] }

def log (s : Session) (events : List Event) : Session :=
  { s with events := s.events ++ events }

end Session
