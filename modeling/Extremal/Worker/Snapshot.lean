import Extremal.Worker.Engine

-- The status that the engine reports, with the parameters of the engine and of the strategy.

structure ConfigParamWithValue where
  param  : ConfigParam
  value  : Json
  source : String

structure ConfigSnapshot where
  params : List ConfigParamWithValue

structure EngineMetrics where
  totalDiscoveries : Nat
  totalSubmitted   : Nat
  totalAdmitted    : Nat
  submitBufferSize : Nat
  knownCidsCount   : Nat
  serverCidsCount  : Nat
  lastRoundMs      : Nat

structure EngineStats where
  round            : Nat
  totalDiscoveries : Nat
  totalSubmitted   : Nat
  totalAdmitted    : Nat
  submitBufferSize : Nat
  knownCidsCount   : Nat
  serverCidsCount  : Nat
  lastRoundMs      : Nat

structure EngineSnapshot where
  state    : WorkerState
  round    : Nat
  n        : Nat
  strategy : String
  workerId : String
  keyId    : String
  config   : ConfigSnapshot
  metrics  : EngineMetrics

-- What a strategy says of itself.
structure StrategyInfo where
  id           : String
  configSchema : List ConfigParam

namespace StrategyInfo

def tabu : StrategyInfo where
  id           := "tabu"
  configSchema := [
    { name := "tabu_tenure", label := "Tabu Tenure",
      description := "Iterations an edge stays tabu after being flipped",
      paramType := .int 1 500, default := .posInt 50, adjustable := true },
    { name := "focused", label := "Focused Edges", description := "Only flip edges participating in violations",
      paramType := .bool, default := .bool false, adjustable := true },
    { name := "polish_max_steps", label := "Polish Max Steps",
      description := "Maximum steps in score-aware tabu polish walk",
      paramType := .int 0 5000, default := .posInt 500, adjustable := true },
    { name := "polish_tabu_tenure", label := "Polish Tabu Tenure",
      description := "Steps an edge stays tabu during polish",
      paramType := .int 5 100, default := .posInt 25, adjustable := true },
    { name := "target_k", label := "Target K", description := "Clique size to minimize in graph (red)",
      paramType := .int 3 10, default := .posInt 5, adjustable := false },
    { name := "target_ell", label := "Target Ell", description := "Clique size to minimize in complement (blue)",
      paramType := .int 3 10, default := .posInt 5, adjustable := false }]

def tree2 : StrategyInfo where
  id           := "tree2"
  configSchema := [
    { name := "beam_width", label := "Beam Width", description := "Number of candidates kept per depth level",
      paramType := .int 1 10000, default := .posInt 100, adjustable := true },
    { name := "max_depth", label := "Max Depth", description := "Number of depth levels to search",
      paramType := .int 1 100, default := .posInt 10, adjustable := true },
    { name := "focused", label := "Focused Edges", description := "Only flip edges participating in violations",
      paramType := .bool, default := .bool false, adjustable := true },
    { name := "target_k", label := "Target K", description := "Clique size to minimize in graph (red)",
      paramType := .int 3 10, default := .posInt 5, adjustable := false },
    { name := "target_ell", label := "Target Ell", description := "Clique size to minimize in complement (blue)",
      paramType := .int 3 10, default := .posInt 5, adjustable := false },
    { name := "polish_max_steps", label := "Polish Max Steps",
      description := "Maximum steps in score-aware tabu polish walk",
      paramType := .int 0 5000, default := .posInt 500, adjustable := true },
    { name := "polish_tabu_tenure", label := "Polish Tabu Tenure",
      description := "Steps an edge stays tabu during polish",
      paramType := .int 5 100, default := .posInt 25, adjustable := true },
    { name := "score_bias_threshold", label := "Score Bias Threshold",
      description := "Violation count below which beam selection prefers balanced kc/ei",
      paramType := .int 0 20, default := .posInt 3, adjustable := true },
    { name := "polish_ils_restarts", label := "Polish ILS Restarts",
      description := "Perturbation+re-polish cycles per valid graph (0=disabled)",
      paramType := .int 0 20, default := .posInt 0, adjustable := true },
    { name := "polish_ils_perturb", label := "Polish ILS Perturb Edges",
      description := "Random valid-preserving edge flips between polish walks",
      paramType := .int 1 20, default := .posInt 3, adjustable := true },
    { name := "max_polish_per_depth", label := "Max Polish Per Depth",
      description := "Cap polish walks per beam depth level (0=unlimited)",
      paramType := .int 0 100, default := .posInt 5, adjustable := true }]

-- The descriptions of the built-in strategies.
def builtIn : List StrategyInfo :=
  [tree2, tabu]

end StrategyInfo

def EngineConfig.engineValue (config : EngineConfig) (p : ConfigParam) : Json :=
  match p.name with
  | "max_iters"                 => .posInt config.maxIters
  | "sample_bias"               => .ofFloat config.sampleBias
  | "noise_flips"               => .posInt config.noiseFlips.toUInt64
  | "max_submissions_per_round" => .posInt <| .ofNat config.maxSubmissionsPerRound
  | "n"                         => .posInt <| .ofNat config.n
  | _                           => p.default

def EngineConfig.strategyValue (config : EngineConfig) (p : ConfigParam) : Json :=
  config.strategyConfig.get p.name |>.getD p.default

def buildSnapshot (state : WorkerState) (config : EngineConfig) (strategy : StrategyInfo) (workerId keyId : String)
    (stats : EngineStats) : EngineSnapshot where
  state    := state
  round    := stats.round
  n        := config.n
  strategy := strategy.id
  workerId := workerId
  keyId    := keyId
  config   := {
    params :=
      (engineConfigParams.map fun p => { param := p, value := config.engineValue p, source := "engine" }) ++
      strategy.configSchema.map fun p => { param := p, value := config.strategyValue p, source := "strategy" } }
  metrics  := {
    totalDiscoveries := stats.totalDiscoveries
    totalSubmitted   := stats.totalSubmitted
    totalAdmitted    := stats.totalAdmitted
    submitBufferSize := stats.submitBufferSize
    knownCidsCount   := stats.knownCidsCount
    serverCidsCount  := stats.serverCidsCount
    lastRoundMs      := stats.lastRoundMs }
