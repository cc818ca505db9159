import Extremal.Lib.Lexicographic
import Extremal.Lib.Loop
import Extremal.Strategies.Moves

open Lexicographic

-- `(max_4c, min_4c, max_3c, min_3c)`. Lower is better.
abbrev ValidScore := Word UInt64

structure ScoreDelta where
  red4  : Int64
  blue4 : Int64
  red3  : Int64
  blue3 : Int64

-- The absolute clique counts of the walk.
structure ScoreState where
  red4  : UInt64
  blue4 : UInt64
  red3  : UInt64
  blue3 : UInt64

namespace ScoreState

def fromCounts (m : Mirrors) (n : Nat) : ScoreState where
  red4  := m.red 4 n
  blue4 := m.blue 4 n
  red3  := m.red 3 n
  blue3 := m.blue 3 n

def scoreTuple (score : ScoreState) : ValidScore where
  symbols := [max score.red4 score.blue4, min score.red4 score.blue4,
              max score.red3 score.blue3, min score.red3 score.blue3]

def applyDelta (score : ScoreState) (d : ScoreDelta) : ScoreState where
  red4  := clamp (score.red4.toInt64 + d.red4)
  blue4 := clamp (score.blue4.toInt64 + d.blue4)
  red3  := clamp (score.red3.toInt64 + d.red3)
  blue3 := clamp (score.blue3.toInt64 + d.blue3)

def predicted (score : ScoreState) (d : ScoreDelta) : ValidScore :=
  let r4 := clamp (score.red4.toInt64 + d.red4)
  let b4 := clamp (score.blue4.toInt64 + d.blue4)
  let r3 := clamp (score.red3.toInt64 + d.red3)
  let b3 := clamp (score.blue3.toInt64 + d.blue3)
  { symbols := [max r4 b4, min r4 b4, max r3 b3, min r3 b3] }

def counters (score : ScoreState) : List Counter :=
  [.red 4 score.red4, .blue 4 score.blue4, .red 3 score.red3, .blue 3 score.blue3]

-- The arguments of the four `.max(0)` in `applyDelta` and in `predicted`.
def clamps (score : ScoreState) (d : ScoreDelta) : List Event :=
  [.clamped (score.red4.toInt64 + d.red4), .clamped (score.blue4.toInt64 + d.blue4),
   .clamped (score.red3.toInt64 + d.red3), .clamped (score.blue3.toInt64 + d.blue3)]

end ScoreState

structure PolishMove where
  u     : Nat
  v     : Nat
  score : ValidScore
  delta : ScoreDelta

-- The arguments of `polish_valid_graph` apart from the graph and what the walk shares with its search.
structure PolishArgs where
  k          : Nat
  ell        : Nat
  maxSteps   : Nat
  tabuTenure : Nat
  iteration  : Nat

structure PolishWalk where
  mirrors   : Mirrors
  score     : ScoreState
  bestGraph : AdjacencyMatrix
  bestScore : ValidScore
  improved  : Bool
  tabuUntil : List Nat
  session   : Session

namespace PolishWalk

def start (graph : AdjacencyMatrix) (session : Session) : PolishWalk :=
  let mirrors := Mirrors.ofGraph graph
  let score   := ScoreState.fromCounts mirrors graph.n
  { mirrors   := mirrors
    score     := score
    bestGraph := graph
    bestScore := score.scoreTuple
    improved  := false
    tabuUntil := List.replicate (graph.n * (graph.n - 1) / 2) 0
    session   := session }

def log (w : PolishWalk) (events : List Event) : PolishWalk :=
  { w with session := w.session.log events }

-- The recount on every 100th step.
def recount (n : Nat) (w : PolishWalk) : PolishWalk :=
  let score := ScoreState.fromCounts w.mirrors n
  { w with score }.log [.recounted (w.score.counters.map Counter.count) (score.counters.map Counter.count)]

def evaluate (w : PolishWalk) (args : PolishArgs) (n step : Nat) (scan : MoveScan PolishMove)
    (p : Nat × Nat) : MoveScan PolishMove :=
  let (dk, de) := w.mirrors.delta args.k args.ell p.1 p.2
  if dk + de ≠ 0 then
    { scan with session := scan.session.log [.held w.mirrors w.score.counters] }
  else
    let (dRed4, dBlue4) := w.mirrors.delta 4 4 p.1 p.2
    let (dRed3, dBlue3) := w.mirrors.delta 3 3 p.1 p.2
    let d : ScoreDelta  := { red4 := dRed4, blue4 := dBlue4, red3 := dRed3, blue3 := dBlue3 }
    let predictedTuple  := w.score.predicted d
    let isTabu          := w.tabuUntil.getD (edgeIndex p.1 p.2 n) 0 > step
    let move            := { u := p.1, v := p.2, score := predictedTuple, delta := d }
    scan.consider PolishMove.score move isTabu (predictedTuple < w.bestScore) <|
      w.score.clamps d ++ [.held w.mirrors w.score.counters]

def scan (w : PolishWalk) (args : PolishArgs) (n step : Nat) : MoveScan PolishMove :=
  (pairs n).foldl (w.evaluate args n step) (.start w.session)

-- Flips the pair of the chosen move and updates the counts, the tabu list and the best graph. A novel
-- graph is reported if the score improved, and on every 20th step.
def apply (lib : Crates) (w : PolishWalk) (args : PolishArgs) (n step : Nat) (move : PolishMove) : PolishWalk :=
  let mirrors       := w.mirrors.flip move.u move.v
  let score         := w.score.applyDelta move.delta
  let scoreImproved := move.score < w.bestScore
  let session       := w.session.log (w.score.clamps move.delta ++ [.held mirrors score.counters])
  { mirrors   := mirrors
    score     := score
    bestGraph := if scoreImproved then mirrors.graph else w.bestGraph
    bestScore := if scoreImproved then move.score else w.bestScore
    improved  := scoreImproved || w.improved
    tabuUntil := w.tabuUntil.set (edgeIndex move.u move.v n) ((step + args.tabuTenure) % 2 ^ 32)
    session   := if scoreImproved || step % 20 = 0 then (session.report lib mirrors.graph args.iteration).2
                 else session }

def advance (lib : Crates) (args : PolishArgs) (n : Nat) (w : PolishWalk) (step : Nat) : ForInStep PolishWalk :=
  let w    := if step % 100 = 0 then w.recount n else w
  let scan := w.scan args n step
  let w    := { w with session := scan.session }
  match scan.chosen PolishMove.score with
  | some move => .yield (w.apply lib args n step move)
  | none      => .done w

end PolishWalk

-- A tabu walk over valid graphs. Yields the best graph if it improves on the given one.
def polishValidGraph (lib : Crates) (args : PolishArgs) (graph : AdjacencyMatrix) (session : Session) :
    Option AdjacencyMatrix × Session :=
  if args.maxSteps = 0 then (none, session)
  else
    let walk := Loop.run (PolishWalk.advance lib args graph.n) (.start graph session) (List.range' 1 args.maxSteps)
    (if walk.improved then some walk.bestGraph else none, walk.session)

def scoreValidGraph (graph : AdjacencyMatrix) (n : Nat) : ValidScore :=
  ScoreState.fromCounts (.ofGraph graph) n |>.scoreTuple

-- The pairs whose flip preserves zero violations.
def validEdges (m : Mirrors) (k ell n : Nat) : List (Nat × Nat) :=
  (pairs n).filter fun p =>
    let (dk, de) := m.delta k ell p.1 p.2
    dk + de = 0

def perturbStep (k ell n : Nat) (ms : Mirrors × Session) (_ : Nat) : ForInStep (Mirrors × Session) :=
  let edges := validEdges ms.1 k ell n
  if edges.isEmpty then .done ms
  else
    let ((u, v), session) := ms.2.choose edges
    .yield (ms.1.flip u v, session)

-- Random flips that preserve zero violations.
def perturbValid (graph : AdjacencyMatrix) (k ell numFlips : Nat) (session : Session) :
    AdjacencyMatrix × Session :=
  let (m, session) := Loop.run (perturbStep k ell graph.n) (.ofGraph graph, session) (List.range numFlips)
  (m.graph, session)

structure IlsWalk where
  current   : AdjacencyMatrix
  bestGraph : Option AdjacencyMatrix
  bestScore : ValidScore
  session   : Session

namespace IlsWalk

-- Keeps a local optimum that is strictly better than the best one.
def offer (w : IlsWalk) (localOpt : AdjacencyMatrix) (n : Nat) : IlsWalk :=
  let localScore := scoreValidGraph localOpt n
  if localScore < w.bestScore then { w with bestScore := localScore, bestGraph := some localOpt } else w

def restart (lib : Crates) (args : PolishArgs) (n perturbEdges : Nat) (w : IlsWalk) (_ : Nat) : IlsWalk :=
  let (perturbed, session)    := perturbValid w.current args.k args.ell perturbEdges w.session
  let (polishResult, session) := polishValidGraph lib args perturbed session
  let localOpt                := polishResult.getD perturbed
  { { w with session }.offer localOpt n with current := localOpt }

end IlsWalk

-- Polish walks that are separated by perturbations.
def ilsPolish (lib : Crates) (args : PolishArgs) (restarts perturbEdges : Nat) (graph : AdjacencyMatrix)
    (session : Session) : Option AdjacencyMatrix × Session :=
  if restarts = 0 then polishValidGraph lib args graph session
  else
    let (initialResult, session) := polishValidGraph lib args graph session
    let walk : IlsWalk :=
      { current   := initialResult.getD graph
        bestGraph := none
        bestScore := scoreValidGraph graph graph.n
        session   := session }
    let walk := initialResult.elim walk (walk.offer · graph.n)
    let walk := (List.range restarts).foldl (IlsWalk.restart lib args graph.n perturbEdges) walk
    (walk.bestGraph, walk.session)
