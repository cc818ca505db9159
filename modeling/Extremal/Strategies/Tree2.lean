import Mathlib.Data.List.MinMax
import Mathlib.Data.List.Sort
import Extremal.Strategies.Init
import Extremal.Strategies.Polish

structure Tree2Config where
  beamWidth          : Nat
  maxDepth           : Nat
  focused            : Bool
  polishMaxSteps     : Nat
  polishTabuTenure   : Nat
  scoreBiasThreshold : UInt64
  polishIlsRestarts  : Nat
  polishIlsPerturb   : Nat
  maxPolishPerDepth  : Nat

def Tree2Config.ofJson (config : Json) : Tree2Config where
  beamWidth          := config.getU64 "beam_width" 100
  maxDepth           := config.getU64 "max_depth" 10 % 2 ^ 32
  focused            := config.getBool "focused" false
  polishMaxSteps     := config.getU64 "polish_max_steps" 500 % 2 ^ 32
  polishTabuTenure   := config.getU64 "polish_tabu_tenure" 25 % 2 ^ 32
  scoreBiasThreshold := .ofNat <| config.getU64 "score_bias_threshold" 3
  polishIlsRestarts  := config.getU64 "polish_ils_restarts" 0 % 2 ^ 32
  polishIlsPerturb   := config.getU64 "polish_ils_perturb" 3 % 2 ^ 32
  maxPolishPerDepth  := config.getU64 "max_polish_per_depth" 5 % 2 ^ 32

structure BeamEntry extends Mirrors where
  violations : UInt64
  kc         : UInt64
  ei         : UInt64

namespace BeamEntry

def fromGraph (graph : AdjacencyMatrix) (k ell : Nat) : BeamEntry :=
  let m  := Mirrors.ofGraph graph
  let kc := m.red k graph.n
  let ei := m.blue ell graph.n
  { m with violations := kc + ei, kc, ei }

def flip (entry : BeamEntry) (u v : Nat) : BeamEntry :=
  { entry with toMirrors := entry.toMirrors.flip u v }

def counters (entry : BeamEntry) (k ell : Nat) : List Counter :=
  [.red k entry.kc, .blue ell entry.ei, .violations k ell entry.violations]

def held (k ell : Nat) (entry : BeamEntry) : Event :=
  .held entry.toMirrors (entry.counters k ell)

end BeamEntry

-- A scored flip of a pair in a parent.
structure Candidate where
  parentIdx     : Nat
  u             : Nat
  v             : Nat
  newViolations : UInt64
  newKc         : UInt64
  newEi         : UInt64

namespace Candidate

-- The distance of the two counts, `(kc as i64 - ei as i64).unsigned_abs()`.
def balance (c : Candidate) : Nat :=
  (c.newKc.toInt64 - c.newEi.toInt64).toInt.natAbs

-- By violations. Candidates with few violations are better if they are more balanced.
def compare (scoreBiasThreshold : UInt64) (a b : Candidate) : Ordering :=
  (Ord.compare a.newViolations b.newViolations).then <|
    if a.newViolations ≤ scoreBiasThreshold then Ord.compare a.balance b.balance else .eq

def sort (scoreBiasThreshold : UInt64) (candidates : List Candidate) : List Candidate :=
  candidates.insertionSort (compare scoreBiasThreshold · · ≠ .gt)

end Candidate

structure Tree2Search where
  session        : Session
  seen           : Finset UInt64
  beam           : List BeamEntry
  itersUsed      : Nat
  discoveryCount : Nat
  bestValid      : Option AdjacencyMatrix
  bestInvalid    : Option (AdjacencyMatrix × UInt64)
  -- Of the current depth.
  candidates     : List Candidate
  scoredCount    : Nat
  polishCalls    : Nat

namespace Tree2Search

def log (t : Tree2Search) (events : List Event) : Tree2Search :=
  { t with session := t.session.log events }

def reportProgress (job : SearchJob) (t : Tree2Search) (entry : BeamEntry) (valid : Bool) : Tree2Search :=
  let info : ProgressInfo :=
    { graph            := entry.graph
      n                := job.n
      strategy         := "tree2"
      iteration        := t.itersUsed
      maxIters         := job.maxIters
      valid            := valid
      violationScore   := entry.violations.toNat % 2 ^ 32
      discoveriesSoFar := t.discoveryCount }
  { t with session := t.session.reportProgress info }

def report (lib : Crates) (t : Tree2Search) (graph : AdjacencyMatrix) : Tree2Search :=
  let (new, session) := t.session.report lib graph t.itersUsed
  if new then { t with session, discoveryCount := t.discoveryCount + 1, bestValid := some graph }
  else { t with session }

def start (lib : Crates) (job : SearchJob) (seed : AdjacencyMatrix) (session : Session) : Tree2Search :=
  let entry := BeamEntry.fromGraph seed job.targetK job.targetEll
  let t : Tree2Search :=
    { session        := session.log [entry.held job.targetK job.targetEll]
      seen           := insert (fastFingerprint entry.adjNbrs.masks) (job.carryState.getD ∅)
      beam           := [entry]
      itersUsed      := 0
      discoveryCount := 0
      bestValid      := none
      bestInvalid    := none
      candidates     := []
      scoredCount    := 0
      polishCalls    := 0 }
  let t := t.reportProgress job entry (entry.violations = 0)
  let t := if entry.violations = 0 then t.report lib entry.graph else t
  if entry.violations > 0 then { t with bestInvalid := some (entry.graph, entry.violations) } else t

-- The budget is used up or the observer has cancelled the search.
def exhausted (job : SearchJob) (t : Tree2Search) : Bool × Tree2Search :=
  if t.itersUsed ≥ job.maxIters then (true, t)
  else
    let (cancelled, session) := t.session.isCancelled
    (cancelled, { t with session })

def depthEdges (job : SearchJob) (t : Tree2Search) : List (Nat × Nat) :=
  if (Tree2Config.ofJson job.config).focused then
    match t.beam.argmin (·.violations.toNat) with
    | some best =>
      if best.violations > 0 then
        let edges := guiltyEdges best.adjNbrs best.compNbrs job.targetK job.targetEll job.n
        if edges.isEmpty then pairs job.n else edges
      else pairs job.n
    | none => pairs job.n
  else pairs job.n

-- The number of pairs that are tried in one parent: as many as its share of the remaining budget allows.
def edgesToTry (t : Tree2Search) (edgeCount remaining parentIdx : Nat) : Nat :=
  let perParent := (remaining - t.scoredCount) / max (t.beam.length - parentIdx) 1
  if edgeCount > perParent && perParent > 0 then perParent else edgeCount

def edgesIter (t : Tree2Search) (edges : List (Nat × Nat)) (remaining parentIdx : Nat) :
    List (Nat × Nat) × Tree2Search :=
  let amount := t.edgesToTry edges.length remaining parentIdx
  if amount < edges.length then
    let (selected, session) := t.session.partialShuffle (List.range edges.length) amount
    (selected.map (edges.getD · (0, 0)), { t with session })
  else (edges, t)

def polishArgs (job : SearchJob) (iteration : Nat) : PolishArgs where
  k          := job.targetK
  ell        := job.targetEll
  maxSteps   := (Tree2Config.ofJson job.config).polishMaxSteps
  tabuTenure := (Tree2Config.ofJson job.config).polishTabuTenure
  iteration  := iteration

-- Polishes a valid graph, unless the walks of this depth are used up.
def polish (lib : Crates) (job : SearchJob) (t : Tree2Search) (validGraph : AdjacencyMatrix) : Tree2Search :=
  let cfg := Tree2Config.ofJson job.config
  if cfg.maxPolishPerDepth = 0 || t.polishCalls < cfg.maxPolishPerDepth then
    let (polished, session) := ilsPolish lib (polishArgs job t.itersUsed) cfg.polishIlsRestarts cfg.polishIlsPerturb
      validGraph t.session
    let t := { t with session, polishCalls := t.polishCalls + 1 }
    match polished with
    | some graph => { t with discoveryCount := t.discoveryCount + 1, bestValid := some graph }
    | none       => t
  else t

-- A full recount verifies that the graph is valid before it is reported and polished.
def verify (lib : Crates) (job : SearchJob) (t : Tree2Search) (validGraph : AdjacencyMatrix) : Tree2Search :=
  let m := Mirrors.ofGraph validGraph
  if m.red job.targetK job.n + m.blue job.targetEll job.n = 0 then t.report lib validGraph |>.polish lib job validGraph
  else t

def trackInvalid (t : Tree2Search) (graph : AdjacencyMatrix) (violations : UInt64) : Tree2Search :=
  if violations > 0 && t.bestInvalid.all (violations < ·.2) then { t with bestInvalid := some (graph, violations) }
  else t

-- Scores the flip of a pair in a parent whose fingerprint is new.
def score (lib : Crates) (job : SearchJob) (t : Tree2Search) (parentIdx : Nat) (parent : BeamEntry) (u v : Nat) :
    Tree2Search :=
  let (deltaKc, deltaEi) := parent.delta job.targetK job.targetEll u v
  let newKc              := clamp (parent.kc.toInt64 + deltaKc)
  let newEi              := clamp (parent.ei.toInt64 + deltaEi)
  let newViolations      := newKc + newEi
  let flipped            := parent.graph.setEdge u v !(parent.graph.edge u v)
  let c : Candidate      := { parentIdx, u, v, newViolations, newKc, newEi }
  let t := { t with
    itersUsed   := t.itersUsed + 1
    scoredCount := t.scoredCount + 1
    candidates  := t.candidates ++ [c] }
  let t := t.log [.clamped (parent.kc.toInt64 + deltaKc), .clamped (parent.ei.toInt64 + deltaEi)]
  let t := if newViolations = 0 then t.verify lib job flipped else t
  let t := t.trackInvalid flipped newViolations
  if t.itersUsed % 100 = 0 then t.reportProgress job parent t.bestValid.isSome else t

-- Flips the pair in the parent to take the fingerprint, and flips it back.
def tryEdge (lib : Crates) (job : SearchJob) (parentIdx : Nat) (t : Tree2Search) (p : Nat × Nat) :
    ForInStep Tree2Search :=
  let (stop, t) := t.exhausted job
  if stop then .done t
  else
    match t.beam[parentIdx]? with
    | none => .yield t
    | some parent =>
      let flipped := parent.flip p.1 p.2
      let fp      := fastFingerprint flipped.adjNbrs.masks
      let parent  := flipped.flip p.1 p.2
      let known   := fp ∈ t.seen
      let t       := { t with seen := insert fp t.seen, beam := t.beam.set parentIdx parent }
      let t       := if known then t else t.score lib job parentIdx parent p.1 p.2
      .yield <| t.log <| t.beam.map (BeamEntry.held job.targetK job.targetEll)

def tryParent (lib : Crates) (job : SearchJob) (edges : List (Nat × Nat)) (remaining : Nat) (t : Tree2Search)
    (parentIdx : Nat) : ForInStep Tree2Search :=
  let (stop, t) := t.exhausted job
  if stop then .done t
  else
    let (edges, t) := t.edgesIter edges remaining parentIdx
    .yield <| Loop.run (tryEdge lib job parentIdx) t edges

-- Builds the entry of a selected candidate from its parent. Every fifth depth recounts.
def materialize (job : SearchJob) (depth : Nat) (parent : BeamEntry) (c : Candidate) : BeamEntry × List Event :=
  let cur      := parent.graph.edge c.u c.v
  let graph    := parent.graph.setEdge c.u c.v !cur
  let comp     := parent.comp.setEdge c.u c.v cur
  let adjNbrs  := NeighborSet.fromAdj graph
  let compNbrs := NeighborSet.fromAdj comp
  if depth % 5 = 0 then
    let kc := countCliques adjNbrs job.targetK job.n
    let ei := countCliques compNbrs job.targetEll job.n
    ({ graph, comp, adjNbrs, compNbrs, violations := kc + ei, kc, ei }, [.recounted [c.newKc, c.newEi] [kc, ei]])
  else
    ({ graph, comp, adjNbrs, compNbrs, violations := c.newKc + c.newEi, kc := c.newKc, ei := c.newEi }, [])

def addEntry (job : SearchJob) (depth : Nat) (beam : List BeamEntry) (be : List BeamEntry × List Event)
    (c : Candidate) : List BeamEntry × List Event :=
  match beam[c.parentIdx]? with
  | none => be
  | some parent =>
    let (entry, events) := materialize job depth parent c
    (be.1 ++ [entry], be.2 ++ events ++ [entry.held job.targetK job.targetEll])

-- Replaces the beam by the best candidates.
def select (job : SearchJob) (t : Tree2Search) (depth : Nat) : Tree2Search :=
  let cfg            := Tree2Config.ofJson job.config
  let selected       := (Candidate.sort cfg.scoreBiasThreshold t.candidates).take cfg.beamWidth
  let (beam, events) := selected.foldl (addEntry job depth t.beam) ([], [])
  { t with beam }.log events

def advance (lib : Crates) (job : SearchJob) (t : Tree2Search) (depth : Nat) : ForInStep Tree2Search :=
  if t.beam.isEmpty then .done t
  else
    let (stop, t) := t.exhausted job
    if stop then .done t
    else
      let remaining := job.maxIters - t.itersUsed
      let edges     := t.depthEdges job
      let t         := { t with candidates := [], scoredCount := 0, polishCalls := 0 }
      let t         := Loop.run (tryParent lib job edges remaining) t (List.range t.beam.length)
      if t.candidates.isEmpty then .done t
      else .yield <| t.select job depth

end Tree2Search

-- `rng` is what the generator yields for the seed of the job, and `cancelled` what the observer answers.
def tree2Search (lib : Crates) (job : SearchJob) (rng : Nat → Nat) (cancelled : Nat → Bool) :
    SearchResult × Session :=
  let (seed, session) := seedGraph job (.start rng cancelled job.knownCids)
  let t := Tree2Search.start lib job seed session
  let t := Loop.run (Tree2Search.advance lib job) t (List.range (Tree2Config.ofJson job.config).maxDepth)
  let t := t.beam.head?.elim t fun entry => t.reportProgress job entry (entry.violations = 0)
  ({ bestGraph      := t.bestValid <|> t.bestInvalid.map (·.1)
     valid          := t.bestValid.isSome
     iterationsUsed := t.itersUsed }, t.session)
