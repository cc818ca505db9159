import Mathlib.Data.List.Sort
import Extremal.Strategies.Session
import Extremal.Types.GraphCid
import Extremal.Worker.Config
import Extremal.Worker.Gate
import Extremal.Worker.Scoring

open Lexicographic

-- The engine loop as a machine. Its inputs are the answers of everything that the loop waits for: the
-- command channel, the shutdown signal, the server, the search and the iteration order of the sets.

structure ScoredDiscovery where
  graph           : AdjacencyMatrix
  canonicalGraph6 : List UInt8
  cid             : GraphCid
  score           : GraphScore

inductive WorkerState
  | idle
  | searching
  | paused
deriving DecidableEq

inductive EngineCommand
  | pause
  | resume
  | stop
  | getStatus
  | updateConfig (patch : List (String × Json))

-- What the loop does next. A drained batch is part of the point at which its next discovery is submitted.
inductive EngineStage
  | top
  | drain
  | paused
  | threshold
  | cids
  | search
  | submitting (toSubmit : List ScoredDiscovery)
  | trim
  | afterRound
  | stopped

-- What can be observed of a run.
inductive EngineEvent
  | took (cmd : EngineCommand)
  | updated (result : ConfigUpdateResult)
  | round
  | accepted (cid : GraphCid)
  | submitted (cid : GraphCid) (ok : Bool)

structure EngineState where
  stage         : EngineStage
  engineState   : WorkerState
  config        : EngineConfig
  knownCids     : Finset GraphCid
  serverCids    : Finset GraphCid
  dashSentCids  : Finset GraphCid
  submitBuffer  : List ScoredDiscovery
  cidSyncCursor : Option Nat
  gate          : Gate
  round         : Nat
  log           : List EngineEvent

-- The arguments of `run_engine` that stay fixed. `maxK` is read once, before the loop.
structure EngineSetup where
  lib            : Crates
  hex            : Hex
  render         : Json → String
  strategyParams : List ConfigParam
  maxK           : Nat
  hasClient      : Bool
  hasCommands    : Bool
  hasDashboard   : Bool

-- `search` is without an answer if the search task has panicked. `trim` gives the elements that the
-- iteration over each set yields first.
inductive EngineInput
  | shutdown (signalled : Bool)
  | tryRecv (cmd : Option EngineCommand)
  | recv (cmd : EngineCommand)
  | threshold (response : Option ThresholdResponse)
  | cids (response : Option (List String)) (now : Nat)
  | search (outcome : Option (SearchResult × List RawDiscovery))
  | submit (ok : Bool)
  | trim (known server dashSent : Finset GraphCid)

namespace EngineState

variable (setup : EngineSetup) (s : EngineState)

def init (config : EngineConfig) : EngineState where
  stage         := .top
  engineState   := .searching
  config        := config
  knownCids     := ∅
  serverCids    := ∅
  dashSentCids  := ∅
  submitBuffer  := []
  cidSyncCursor := none
  gate          := .init
  round         := 0
  log           := []

def goto (stage : EngineStage) : EngineState :=
  { s with stage }

def record (events : List EngineEvent) : EngineState :=
  { s with log := s.log ++ events }

-- `!config.offline && let Some(ref client) = client`
def online : Bool :=
  !s.config.offline && setup.hasClient

def batchSize : Nat :=
  if s.config.maxSubmissionsPerRound > 0 then s.config.maxSubmissionsPerRound else 20

section Commands

-- The commands that do not end the paused loop are handled alike in both loops.
def handle (cmd : EngineCommand) : EngineState :=
  match cmd with
  | .pause              => { s with engineState := .paused }
  | .resume             => { s with engineState := .searching }
  | .stop               => { s with engineState := .idle }
  | .getStatus          => s
  | .updateConfig patch =>
    let (config, result) := applyConfigPatch setup.render s.config setup.strategyParams patch (s.round + 1)
    { s with config }.record [.updated result]

def startRound : EngineState :=
  { s with round := s.round + 1 }.record [.round] |>.goto <| if s.online setup then .threshold else .search

-- Once no command is pending.
def leaveDrain : EngineState :=
  match s.engineState with
  | .paused    => s.goto <| if setup.hasCommands then .paused else .stopped
  | .idle      => s.goto .stopped
  | .searching => s.startRound setup

end Commands

section Round

def syncCids (cids : List String) (now : Nat) : EngineState :=
  let cids' := (cids.filterMap (GraphCid.fromHex setup.hex)).toFinset
  { s with
    knownCids     := s.knownCids ∪ cids'
    serverCids    := s.serverCids ∪ cids'
    cidSyncCursor := if cids.length > 0 then some now else s.cidSyncCursor }

-- What the loop over the discoveries of a round changes.
structure Collected where
  knownCids           : Finset GraphCid
  dashSentCids        : Finset GraphCid
  dashDiscoveriesSent : Nat
  newScored           : List ScoredDiscovery

-- At most `MAX_DASH_DISCOVERIES` discoveries of a round go to the dashboard.
def Collected.sendDiscovery (c : Collected) (cid : GraphCid) : Collected :=
  if setup.hasDashboard ∧ cid ∉ c.dashSentCids ∧ c.dashDiscoveriesSent < 20 then
    { c with dashSentCids := insert cid c.dashSentCids, dashDiscoveriesSent := c.dashDiscoveriesSent + 1 }
  else c

def collectOne (c : Collected) (discovery : RawDiscovery) : Collected :=
  let canonical := (canonicalForm setup.lib discovery.graph).1
  let canonicalGraph6 := Graph6.encode canonical
  let cid := computeCid setup.lib canonical
  let score := Engine.score setup.lib s.config.n setup.maxK discovery.graph
  let c := c.sendDiscovery setup cid
  if cid ∈ c.knownCids then c
  else if cid ∈ s.serverCids then c
  else if s.gate.drops ⟨score.toScoreBytes setup.maxK⟩ then c
  else { c with
    knownCids := insert cid c.knownCids
    newScored := c.newScored ++ [{ graph := discovery.graph, canonicalGraph6, cid, score }] }

-- The discoveries that a round scores: at most `MAX_SCORE_PER_ROUND` of them.
def toScore (result : SearchResult) (discoveries : List RawDiscovery) : List RawDiscovery :=
  let best := match result.bestGraph with
    | some best => if result.valid then [{ graph := best, iteration := result.iterationsUsed : RawDiscovery }] else []
    | none      => []
  (discoveries ++ best).take 200

def collect (discoveries : List RawDiscovery) : Collected :=
  discoveries.foldl (s.collectOne setup) ⟨s.knownCids, s.dashSentCids, 0, []⟩

def capBuffer : EngineState :=
  if s.submitBuffer.length > 500 then
    let dropped := s.submitBuffer.take (s.submitBuffer.length - 200)
    { s with
      submitBuffer := s.submitBuffer.drop (s.submitBuffer.length - 200)
      knownCids    := s.knownCids \ (dropped.map (·.cid)).toFinset }
  else s

-- Submits the rest of a batch, if any is left.
def submitNext (toSubmit : List ScoredDiscovery) : EngineState :=
  match toSubmit with
  | []     => s.capBuffer.goto .trim
  | _ :: _ => s.goto <| .submitting toSubmit

-- The discoveries of a round enter the buffer. The sort is stable.
def addToBuffer (discoveries : List RawDiscovery) : EngineState :=
  let c := s.collect setup discoveries
  let submitBuffer := (s.submitBuffer ++ c.newScored).insertionSort fun a b => (a.score.cmp b.score).isLE
  let s : EngineState := { s with knownCids := c.knownCids, dashSentCids := c.dashSentCids, submitBuffer }
  s.record <| c.newScored.map (.accepted ·.cid)

def startSubmit : EngineState :=
  if s.online setup then
    let count := min s.submitBuffer.length s.batchSize
    { s with submitBuffer := s.submitBuffer.drop count }.submitNext (s.submitBuffer.take count)
  else s.goto .trim

def finishSearch (result : SearchResult) (discoveries : List RawDiscovery) : EngineState :=
  s.addToBuffer setup (toScore result discoveries) |>.startSubmit setup

-- The first failed call ends the batch.
def finishSubmit (discovery : ScoredDiscovery) (rest : List ScoredDiscovery) (ok : Bool) : EngineState :=
  let s := s.record [.submitted discovery.cid ok]
  if ok then { s with serverCids := insert discovery.cid s.serverCids }.submitNext rest
  else s.submitNext []

-- Removes the first elements of an iteration over a set with more than `limit` elements, so that
-- `target` of them are left.
def trimmed (set : Finset GraphCid) (limit target : Nat) (drained : Finset GraphCid) : Option (Finset GraphCid) :=
  if set.card > limit then
    if drained ⊆ set ∧ drained.card = set.card - target then some (set \ drained) else none
  else some set

def trimCids (known server dashSent : Finset GraphCid) : Option EngineState := do
  let max := s.config.maxKnownCids
  let knownCids ← trimmed s.knownCids (max * 2) max known
  let serverCids ← trimmed s.serverCids max (max / 2) server
  let dashSentCids ← trimmed s.dashSentCids max (max / 2) dashSent
  return { s with knownCids, serverCids, dashSentCids }

end Round

def step (setup : EngineSetup) (s : EngineState) (input : EngineInput) : Option EngineState :=
  match s.stage, input with
  | .top, .shutdown signalled =>
    if signalled then s.goto .stopped
    else if setup.hasCommands then s.goto .drain
    else s.leaveDrain setup
  | .drain, .tryRecv (some cmd) => s.record [.took cmd] |>.handle setup cmd
  | .drain, .tryRecv none => s.leaveDrain setup
  | .paused, .recv cmd =>
    let s := s.record [.took cmd] |>.handle setup cmd
    match cmd with
    | .resume => s.startRound setup
    | .stop   => s.goto .stopped
    | _       => s
  | .paused, .shutdown signalled => if signalled then { s with engineState := .idle }.goto .stopped else s
  | .threshold, .threshold response => { s with gate := s.gate.sync setup.hex response }.goto .cids
  | .cids, .cids response now =>
    match response with
    | some cids => s.syncCids setup cids now |>.goto .search
    | none      => s.goto .search
  | .search, .search outcome =>
    match outcome with
    | some (result, discoveries) => s.finishSearch setup result discoveries
    | none                       => s.goto .top
  | .submitting (discovery :: rest), .submit ok => s.finishSubmit discovery rest ok
  | .trim, .trim known server dashSent => s.trimCids known server dashSent |>.map (·.goto .afterRound)
  | .afterRound, .shutdown signalled => s.goto <| if signalled then .stopped else .top
  | _, _ => none

end EngineState
