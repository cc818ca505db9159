import Extremal.Lib.Loop
import Extremal.Strategies.Init
import Extremal.Strategies.Mirrors

structure AnnealingConfig where
  initialTemp : Float
  coolingRate : Float

def AnnealingConfig.ofJson (config : Json) : AnnealingConfig where
  initialTemp := config.get "initial_temp" |>.bind Json.asF64 |>.getD 10.0
  coolingRate := config.get "cooling_rate" |>.bind Json.asF64 |>.getD 0.9999

-- `gen_range(0.0..1.0)`, which draws the 52 bits of a mantissa.
def Session.genUnit (s : Session) : Float × Session :=
  ((s.rng 0 % 2 ^ 52).toFloat / (2 ^ 52 : Nat).toFloat, { s with rng := fun i => s.rng (i + 1) })

structure SimulatedAnnealing where
  mirrors        : Mirrors
  violations     : UInt64
  bestGraph      : Option AdjacencyMatrix
  bestViolations : UInt64
  discoveries    : List RawDiscovery
  temperature    : Float
  session        : Session

namespace SimulatedAnnealing

def log (t : SimulatedAnnealing) (events : List Event) : SimulatedAnnealing :=
  { t with session := t.session.log events }

def counters (t : SimulatedAnnealing) (job : SearchJob) : List Counter :=
  [.violations job.targetK job.targetEll t.violations]

-- A new graph goes to the observer and into the result.
def report (lib : Crates) (t : SimulatedAnnealing) (iter : Nat) : Bool × SimulatedAnnealing :=
  let (new, session) := t.session.report lib t.mirrors.graph iter
  if new then
    (true, { t with session, discoveries := t.discoveries ++ [{ graph := t.mirrors.graph, iteration := iter }] })
  else (false, { t with session })

def start (lib : Crates) (job : SearchJob) (graph : AdjacencyMatrix) (session : Session) : SimulatedAnnealing :=
  let mirrors    := Mirrors.ofGraph graph
  let violations := mirrors.red job.targetK job.n + mirrors.blue job.targetEll job.n
  let t : SimulatedAnnealing :=
    { mirrors        := mirrors
      violations     := violations
      bestGraph      := none
      bestViolations := violations
      discoveries    := []
      temperature    := (AnnealingConfig.ofJson job.config).initialTemp
      session        := session }
  let t := t.log [.held mirrors (t.counters job)]
  if violations = 0 then
    let (new, t) := t.report lib 0
    if new then { t with bestGraph := some graph } else t
  else t

-- A move that makes things worse is accepted at random. The higher the temperature, the more likely it is.
def accept (t : SimulatedAnnealing) (delta : Int64) : Bool × SimulatedAnnealing :=
  if delta ≤ 0 then (true, t)
  else
    let prob            := ((-delta).toFloat / t.temperature).exp
    let (draw, session) := t.session.genUnit
    (draw < prob, { t with session })

-- The sum becomes an unsigned number.
def flip (job : SearchJob) (t : SimulatedAnnealing) (u v : Nat) (delta : Int64) : SimulatedAnnealing :=
  let mirrors    := t.mirrors.flip u v
  let count      := t.violations.toInt64 + delta
  let violations := count.toUInt64
  let improves   := violations < t.bestViolations
  let t := { t with
    mirrors        := mirrors
    violations     := violations
    bestViolations := if improves then violations else t.bestViolations
    bestGraph      := if improves then some mirrors.graph else t.bestGraph }
  t.log [.clamped count, .held mirrors (t.counters job)]

def move (lib : Crates) (job : SearchJob) (t : SimulatedAnnealing) (iter u v : Nat) (delta : Int64) : SimulatedAnnealing :=
  let t := t.flip job u v delta
  if t.violations = 0 then (t.report lib iter).2 else t

def reportProgress (job : SearchJob) (t : SimulatedAnnealing) (iter : Nat) : SimulatedAnnealing :=
  let info : ProgressInfo :=
    { graph            := t.mirrors.graph
      n                := job.n
      strategy         := "sa"
      iteration        := iter
      maxIters         := job.maxIters
      valid            := t.violations = 0
      violationScore   := t.violations.toNat % 2 ^ 32
      discoveriesSoFar := t.discoveries.length }
  { t with session := t.session.reportProgress info }

def coolDown (job : SearchJob) (t : SimulatedAnnealing) : SimulatedAnnealing :=
  { t with temperature := t.temperature * (AnnealingConfig.ofJson job.config).coolingRate }

def advance (lib : Crates) (job : SearchJob) (t : SimulatedAnnealing) (iter : Nat) : ForInStep SimulatedAnnealing :=
  let (cancelled, session) := t.session.isCancelled
  let t := { t with session }
  if cancelled then .done t
  else
    let ((u, v), session) := t.session.choose (pairs job.n)
    let t           := { t with session }
    let (dk, de)    := t.mirrors.delta job.targetK job.targetEll u v
    let (accept, t) := t.accept (dk + de)
    let t           := if accept then t.move lib job iter u v (dk + de) else t
    let t           := t.coolDown job
    .yield <| if iter % 1000 = 0 then t.reportProgress job iter else t

end SimulatedAnnealing

-- The other strategies leave the discoveries of a result empty.
structure AnnealingResult extends SearchResult where
  discoveries : List RawDiscovery

-- `rng` is what the generator yields for the seed of the job, and `cancelled` what the observer answers.
def simulatedAnnealing (lib : Crates) (job : SearchJob) (rng : Nat → Nat) (cancelled : Nat → Bool) :
    AnnealingResult × Session :=
  let (graph, session) := seedGraph job (.start rng cancelled job.knownCids)
  let t := Loop.run (SimulatedAnnealing.advance lib job) (.start lib job graph session) (List.range job.maxIters)
  ({ bestGraph      := t.bestGraph
     valid          := !t.discoveries.isEmpty
     iterationsUsed := job.maxIters
     discoveries    := t.discoveries }, t.session)
