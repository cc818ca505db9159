import Extremal.Strategies.Init
import Extremal.Strategies.Polish

structure TabuConfig where
  tabuTenure       : Nat
  focused          : Bool
  polishMaxSteps   : Nat
  polishTabuTenure : Nat

def TabuConfig.ofJson (config : Json) : TabuConfig where
  tabuTenure       := config.getU64 "tabu_tenure" 50
  focused          := config.getBool "focused" false
  polishMaxSteps   := config.getU64 "polish_max_steps" 500 % 2 ^ 32
  polishTabuTenure := config.getU64 "polish_tabu_tenure" 25 % 2 ^ 32

structure TabuMove where
  u     : Nat
  v     : Nat
  delta : Int64

structure TabuSearch where
  mirrors            : Mirrors
  violations         : UInt64
  tabuUntil          : List Nat
  bestEverViolations : UInt64
  discoveryCount     : Nat
  bestValid          : Option AdjacencyMatrix
  bestInvalid        : Option (AdjacencyMatrix × UInt64)
  session            : Session

namespace TabuSearch

def start (job : SearchJob) (graph : AdjacencyMatrix) (session : Session) : TabuSearch :=
  let mirrors    := Mirrors.ofGraph graph
  let violations := mirrors.red job.targetK job.n + mirrors.blue job.targetEll job.n
  { mirrors            := mirrors
    violations         := violations
    tabuUntil          := List.replicate (job.n * (job.n - 1) / 2) 0
    bestEverViolations := violations
    discoveryCount     := 0
    bestValid          := none
    bestInvalid        := some (graph, violations)
    session            := session }

def log (t : TabuSearch) (events : List Event) : TabuSearch :=
  { t with session := t.session.log events }

def counters (t : TabuSearch) (job : SearchJob) : List Counter :=
  [.violations job.targetK job.targetEll t.violations]

def report (lib : Crates) (t : TabuSearch) (iter : Nat) : TabuSearch :=
  let (new, session) := t.session.report lib t.mirrors.graph iter
  if new then { t with session, discoveryCount := t.discoveryCount + 1, bestValid := some t.mirrors.graph }
  else { t with session }

def polishArgs (job : SearchJob) (iter : Nat) : PolishArgs where
  k          := job.targetK
  ell        := job.targetEll
  maxSteps   := (TabuConfig.ofJson job.config).polishMaxSteps
  tabuTenure := (TabuConfig.ofJson job.config).polishTabuTenure
  iteration  := iter

def polish (lib : Crates) (job : SearchJob) (t : TabuSearch) (iter : Nat) : TabuSearch :=
  if (TabuConfig.ofJson job.config).polishMaxSteps > 0 then
    let (polished, session) := polishValidGraph lib (polishArgs job iter) t.mirrors.graph t.session
    { t with session, bestValid := polished <|> t.bestValid }
  else t

-- Reports a valid graph and polishes it.
def found (lib : Crates) (job : SearchJob) (t : TabuSearch) (iter : Nat) : TabuSearch :=
  t.report lib iter |>.polish lib job iter

def reportProgress (job : SearchJob) (t : TabuSearch) (iter : Nat) (valid : Bool) : TabuSearch :=
  let info : ProgressInfo :=
    { graph            := t.mirrors.graph
      n                := job.n
      strategy         := "tabu"
      iteration        := iter
      maxIters         := job.maxIters
      valid            := valid
      violationScore   := t.violations.toNat % 2 ^ 32
      discoveriesSoFar := t.discoveryCount }
  { t with session := t.session.reportProgress info }

-- The recount on every 500th iteration.
def recount (job : SearchJob) (t : TabuSearch) : TabuSearch :=
  let violations := t.mirrors.red job.targetK job.n + t.mirrors.blue job.targetEll job.n
  { t with violations }.log [.recounted [t.violations] [violations]]

def candidates (job : SearchJob) (t : TabuSearch) : List (Nat × Nat) :=
  if (TabuConfig.ofJson job.config).focused && t.violations > 0 then
    let edges := guiltyEdges t.mirrors.adjNbrs t.mirrors.compNbrs job.targetK job.targetEll job.n
    if edges.isEmpty then pairs job.n else edges
  else pairs job.n

def evaluate (job : SearchJob) (t : TabuSearch) (iter : Nat) (scan : MoveScan TabuMove) (p : Nat × Nat) :
    MoveScan TabuMove :=
  let (dk, de)      := t.mirrors.delta job.targetK job.targetEll p.1 p.2
  let delta         := dk + de
  let newViolations := clamp (t.violations.toInt64 + delta)
  let isTabu        := t.tabuUntil.getD (edgeIndex p.1 p.2 job.n) 0 > iter
  let move          := { u := p.1, v := p.2, delta }
  scan.consider TabuMove.delta move isTabu (newViolations < t.bestEverViolations)
    [.clamped (t.violations.toInt64 + delta), .held t.mirrors (t.counters job)]

def scan (job : SearchJob) (t : TabuSearch) (iter : Nat) : MoveScan TabuMove :=
  (t.candidates job).foldl (t.evaluate job iter) (.start t.session)

-- A random pair breaks the deadlock if all moves are tabu.
def randomMove (job : SearchJob) (t : TabuSearch) : TabuMove × TabuSearch :=
  let ((u, v), session) := t.session.choose (pairs job.n)
  let (dk, de)          := t.mirrors.delta job.targetK job.targetEll u v
  ({ u, v, delta := dk + de }, { t with session })

def choose (job : SearchJob) (t : TabuSearch) (iter : Nat) : TabuMove × TabuSearch :=
  let scan := t.scan job iter
  let t    := { t with session := scan.session }
  match scan.chosen TabuMove.delta with
  | some move => (move, t)
  | none      => t.randomMove job

def apply (job : SearchJob) (t : TabuSearch) (iter : Nat) (move : TabuMove) : TabuSearch :=
  let mirrors    := t.mirrors.flip move.u move.v
  let count      := t.violations.toInt64 + move.delta
  let violations := clamp count
  let improves   := t.bestInvalid.all (violations < ·.2)
  let t := { t with
    mirrors            := mirrors
    violations         := violations
    tabuUntil          := t.tabuUntil.set (edgeIndex move.u move.v job.n)
                            ((iter + (TabuConfig.ofJson job.config).tabuTenure) % 2 ^ 64)
    bestEverViolations := if violations < t.bestEverViolations then violations else t.bestEverViolations
    bestInvalid        := if violations > 0 && improves then some (mirrors.graph, violations) else t.bestInvalid }
  t.log [.clamped count, .held mirrors (t.counters job)]

-- A full recount verifies that the graph is valid, and corrects the count otherwise.
def verify (lib : Crates) (job : SearchJob) (t : TabuSearch) (iter : Nat) : TabuSearch :=
  let actual := t.mirrors.red job.targetK job.n + t.mirrors.blue job.targetEll job.n
  if actual = 0 then t.found lib job iter
  else { t with violations := actual }.log [.drifted]

def advance (lib : Crates) (job : SearchJob) (t : TabuSearch) (iter : Nat) : ForInStep TabuSearch :=
  let (cancelled, session) := t.session.isCancelled
  let t := { t with session }
  if cancelled then .done t
  else
    let t         := if iter % 500 = 0 then t.recount job else t
    let (move, t) := t.choose job iter
    let t         := t.apply job iter move
    let t         := if t.violations = 0 then t.verify lib job iter else t
    .yield <| if iter % 100 = 0 then t.reportProgress job iter t.bestValid.isSome else t

end TabuSearch

-- `rng` is what the generator yields for the seed of the job, and `cancelled` what the observer answers.
def tabuSearch (lib : Crates) (job : SearchJob) (rng : Nat → Nat) (cancelled : Nat → Bool) :
    SearchResult × Session :=
  let (graph, session) := seedGraph job (.start rng cancelled job.knownCids)
  let t := TabuSearch.start job graph session
  let t := if t.violations = 0 then t.found lib job 0 else t
  let t := t.reportProgress job 0 (t.violations = 0)
  let t := Loop.run (TabuSearch.advance lib job) t (List.range' 1 job.maxIters)
  ({ bestGraph      := t.bestValid <|> t.bestInvalid.map (·.1)
     valid          := t.bestValid.isSome
     iterationsUsed := job.maxIters }, t.session)
