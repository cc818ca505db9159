import Extremal.Strategies.Carry
import Extremal.Worker.Seed

-- The worker: the engine loop together with the searches that it starts, the graphs that they start from and the
-- state that they hand on to each other.

structure WorkerSetup where
  lib          : Crates
  hex          : Hex
  render       : Json → String
  strategy     : Strategy
  config       : EngineConfig
  hasClient    : Bool
  hasCommands  : Bool
  hasDashboard : Bool

def WorkerSetup.engine (setup : WorkerSetup) : EngineSetup where
  lib            := setup.lib
  hex            := setup.hex
  render         := setup.render
  strategyParams := setup.strategy.info.configSchema
  maxK           := Engine.maxK setup.config.strategyConfig
  hasClient      := setup.hasClient
  hasCommands    := setup.hasCommands
  hasDashboard   := setup.hasDashboard

-- What the generators of the engine and of the search yield in a round, and the fingerprints that the iteration
-- over the seen ones yields first.
structure Chance where
  seed   : Nat → Nat
  search : Nat → Nat
  excess : Finset UInt64

-- A search that panics takes the state of the last round with it.
inductive WorkerInput
  | engine (input : EngineInput)
  | graphs (response : Option (List (List UInt8)))
  | search (chance : Chance)
  | panic (chance : Chance)

-- While a worker is fetching, the graphs of the leaderboard are still to come before the search of this round.
structure Worker where
  engine       : EngineState
  serverGraphs : List (List UInt8)
  fetching     : Bool
  carryState   : Option (Finset UInt64)

namespace Worker

def init (setup : WorkerSetup) : Worker where
  engine       := .init setup.config
  serverGraphs := []
  fetching     := false
  carryState   := none

-- The graphs are fetched in the first and in each tenth round, after the CIDs.
def fetches (w : Worker) (engine : EngineState) : EngineInput → Bool
  | .cids _ _ => engine.round = 1 ∨ engine.round % 10 = 0
  | _         => w.fetching

-- An empty answer keeps the old graphs.
def setGraphs (w : Worker) (response : Option (List (List UInt8))) : Worker :=
  let serverGraphs := match response with
    | some graphs => if graphs.isEmpty then w.serverGraphs else graphs
    | none        => w.serverGraphs
  { w with serverGraphs, fetching := false }

def job? (w : Worker) (chance : Chance) : Option SearchJob := do
  let config := w.engine.config
  let initGraph ← pickSeed? w.serverGraphs config.n config.sampleBias config.noiseFlips.toNat chance.seed
  return {
    n          := config.n
    maxIters   := config.maxIters.toNat
    initGraph  := some initGraph
    config     := config.strategyConfig
    knownCids  := w.engine.knownCids
    carryState := w.carryState }

-- Neither of the observers of the engine cancels a search.
def search? (setup : WorkerSetup) (w : Worker) (chance : Chance) : Option Worker := do
  let job ← w.job? chance
  let (result, session) := setup.strategy.search job chance.search fun _ => false
  let engine ← w.engine.step setup.engine (.search <| some (result, session.discoveries))
  match setup.strategy.seen job chance.search fun _ => false with
  | some seen => return { w with engine, carryState := some (← capSeen? seen chance.excess) }
  | none      => return { w with engine, carryState := none }

def panic? (setup : WorkerSetup) (w : Worker) (chance : Chance) : Option Worker := do
  let _ ← w.job? chance
  let engine ← w.engine.step setup.engine (.search none)
  return { w with engine, carryState := none }

def step (setup : WorkerSetup) (w : Worker) (input : WorkerInput) : Option Worker :=
  match input with
  | .engine (.search _) => none
  | .engine input       => w.engine.step setup.engine input |>.map fun engine =>
    { w with engine, fetching := w.fetches engine input }
  | .graphs response    => if w.fetching then some (w.setGraphs response) else none
  | .search chance      => if w.fetching then none else w.search? setup chance
  | .panic chance       => if w.fetching then none else w.panic? setup chance

end Worker
