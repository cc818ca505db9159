import Extremal.Types.Json
import Mathlib.Algebra.Group.Nat.Defs

inductive ParamType
  | float (min max : Float)
  | int (min max : Int)
  | bool

structure ConfigParam where
  name        : String
  label       : String
  description : String
  paramType   : ParamType
  default     : Json
  adjustable  : Bool

-- The configuration of the engine, as far as the engine loop reads it.
structure EngineConfig where
  n                      : Nat
  maxIters               : UInt64
  strategyConfig         : Json
  sampleBias             : Float
  maxKnownCids           : Nat
  offline                : Bool
  noiseFlips             : UInt32
  maxSubmissionsPerRound : Nat

structure ConfigUpdateResult where
  applied        : List String
  errors         : List (String × String)
  effectiveRound : Nat

def engineConfigParams : List ConfigParam := [
  { name := "max_iters", label := "Max Iterations", description := "Iteration budget per search round",
    paramType := .int 100 10000000, default := .posInt 100000, adjustable := true },
  { name := "sample_bias", label := "Sample Bias", description := "Leaderboard seed bias (0=uniform, 1=top-biased)",
    paramType := .float 0.0 1.0, default := .float 0.8, adjustable := true },
  { name := "noise_flips", label := "Noise Flips", description := "Random edge flips applied to seed graphs",
    paramType := .int 0 100, default := .posInt 0, adjustable := true },
  { name := "max_submissions_per_round", label := "Max Submissions/Round",
    description := "Maximum graphs submitted per round (0=unlimited)",
    paramType := .int 0 1000, default := .posInt 20, adjustable := true },
  { name := "n", label := "Vertex Count", description := "Target vertex count (cannot be changed at runtime)",
    paramType := .int 3 100, default := .posInt 25, adjustable := false }]

section Display

-- A decimal `d * 10 ^ k` next to `mantissa * 2 ^ exponent` that rounds to it. In quarters of the last place, these are
-- the numbers that are at most `below` smaller or 2 greater; if the mantissa is odd, without the limits.
def decimalAt (mantissa below : Nat) (exponent k : Int) : Option Nat :=
  let quarter := 2 ^ (exponent - 2).toNat * 10 ^ (-k).toNat
  let unit := 2 ^ (2 - exponent).toNat * 10 ^ k.toNat
  let value := 4 * mantissa * quarter
  let low := value - below * quarter
  let high := value + 2 * quarter
  let rounds (d : Nat) : Bool :=
    if mantissa % 2 = 0 then low ≤ d * unit ∧ d * unit ≤ high else low < d * unit ∧ d * unit < high
  let d := value / unit
  if rounds (d + 1) ∧ (¬rounds d ∨ unit ≤ 2 * (value % unit)) then some (d + 1)
  else if rounds d then some d
  else none

def showDecimal (d : Nat) (k : Int) : String :=
  let digits := Nat.toDigits 10 d
  if 0 ≤ k then String.ofList <| digits ++ List.replicate k.toNat '0'
  else
    let digits := List.replicate ((-k).toNat + 1 - digits.length) '0' ++ digits
    let point := digits.length - (-k).toNat
    String.ofList <| digits.take point ++ '.' :: digits.drop point

-- The text of a float in an error message: the shortest decimal that rounds to it, without an exponent.
def showFloat (v : Float) : String :=
  let bits := v.toBits.toNat
  let fraction := bits % 2 ^ 52
  let biased := bits / 2 ^ 52 % 2 ^ 11
  let text :=
    if biased = 2047 then "inf"
    else if biased = 0 ∧ fraction = 0 then "0"
    else
      let mantissa := if biased = 0 then fraction else 2 ^ 52 + fraction
      let exponent := if biased = 0 then -1074 else Int.ofNat biased - 1075
      -- The gap below a power of two is half as wide.
      let below := if fraction = 0 ∧ 1 < biased then 1 else 2
      let powers := (List.range 700).map fun i => 309 - Int.ofNat i
      let decimal := powers.findSome? fun k => (decimalAt mantissa below exponent k).map (showDecimal · k)
      decimal.getD ""
  if v.isNaN then "NaN" else if bits / 2 ^ 63 = 1 then "-" ++ text else text

end Display

section Patch

-- The text of a JSON value in an error message.
variable (render : Json → String)

def validateParamValue (param : ConfigParam) (value : Json) : Except String Unit :=
  match param.paramType with
  | .int min max =>
    match value.asI64 with
    | none   => .error s!"expected integer, got {render value}"
    | some v => if v < min ∨ v > max then .error s!"value {v} out of range [{min}, {max}]" else .ok ()
  | .float min max =>
    match value.asF64 with
    | none   => .error s!"expected float, got {render value}"
    | some v =>
      if v < min ∨ v > max then
        .error s!"value {showFloat v} out of range [{showFloat min}, {showFloat max}]"
      else .ok ()
  | .bool => if value.isBoolean then .ok () else .error s!"expected boolean, got {render value}"

-- Writes a validated engine parameter. The source unwraps the numbers.
def EngineConfig.setParam (config : EngineConfig) (name : String) (value : Json) : Option EngineConfig :=
  match name with
  | "max_iters"                 => some { config with maxIters := UInt64.ofNat <| value.asU64.getD 0 }
  | "sample_bias"               => some { config with sampleBias := value.asF64.getD 0.0 }
  | "noise_flips"               => some { config with noiseFlips := UInt32.ofNat <| value.asU64.getD 0 }
  | "max_submissions_per_round" => some { config with maxSubmissionsPerRound := value.asU64.getD 0 }
  | _                           => none

def ConfigUpdateResult.apply (result : ConfigUpdateResult) (name : String) : ConfigUpdateResult :=
  { result with applied := result.applied ++ [name] }

def ConfigUpdateResult.reject (result : ConfigUpdateResult) (name error : String) : ConfigUpdateResult :=
  { result with errors := result.errors ++ [(name, error)] }

def applyConfigParam (strategyParams : List ConfigParam) (state : EngineConfig × ConfigUpdateResult)
    (param : String × Json) : EngineConfig × ConfigUpdateResult :=
  let (config, result) := state
  let (name, value) := param
  match engineConfigParams.find? (·.name = name) with
  | some ep =>
    if !ep.adjustable then (config, result.reject name "parameter is not adjustable at runtime")
    else
      match validateParamValue render ep value with
      | .error e => (config, result.reject name e)
      | .ok _ =>
        match config.setParam name value with
        | some config => (config, result.apply name)
        | none        => (config, result.reject name "unknown engine param")
  | none =>
    match strategyParams.find? (·.name = name) with
    | some sp =>
      if !sp.adjustable then (config, result.reject name "parameter is not adjustable at runtime")
      else
        match validateParamValue render sp value with
        | .error e => (config, result.reject name e)
        | .ok _    => ({ config with strategyConfig := config.strategyConfig.insert name value }, result.apply name)
    | none => (config, result.reject name "unknown parameter")

-- The patch lists its entries in the order in which the map yields them.
def applyConfigPatch (config : EngineConfig) (strategyParams : List ConfigParam) (patch : List (String × Json))
    (nextRound : Nat) : EngineConfig × ConfigUpdateResult :=
  patch.foldl (applyConfigParam render strategyParams) (config, { applied := [], errors := [], effectiveRound := nextRound })

section Checked

-- The same functions with the panics of the source, at which there is no result.

def EngineConfig.setParam? (config : EngineConfig) (name : String) (value : Json) : Option (Option EngineConfig) :=
  match name with
  | "max_iters"                 => value.asU64.map fun v => some { config with maxIters := UInt64.ofNat v }
  | "sample_bias"               => value.asF64.map fun v => some { config with sampleBias := v }
  | "noise_flips"               => value.asU64.map fun v => some { config with noiseFlips := UInt32.ofNat v }
  | "max_submissions_per_round" => value.asU64.map fun v => some { config with maxSubmissionsPerRound := v }
  | _                           => some none

def applyConfigParam? (strategyParams : List ConfigParam) (state : EngineConfig × ConfigUpdateResult)
    (param : String × Json) : Option (EngineConfig × ConfigUpdateResult) :=
  let (config, result) := state
  let (name, value) := param
  match engineConfigParams.find? (·.name = name) with
  | some ep =>
    if !ep.adjustable then some (config, result.reject name "parameter is not adjustable at runtime")
    else
      match validateParamValue render ep value with
      | .error e => some (config, result.reject name e)
      | .ok _ =>
        match config.setParam? name value with
        | some (some config) => some (config, result.apply name)
        | some none          => some (config, result.reject name "unknown engine param")
        | none               => none
  | none =>
    match strategyParams.find? (·.name = name) with
    | some sp =>
      if !sp.adjustable then some (config, result.reject name "parameter is not adjustable at runtime")
      else
        match validateParamValue render sp value with
        | .error e => some (config, result.reject name e)
        | .ok _    => some ({ config with strategyConfig := config.strategyConfig.insert name value }, result.apply name)
    | none => some (config, result.reject name "unknown parameter")

def applyConfigPatch? (config : EngineConfig) (strategyParams : List ConfigParam) (patch : List (String × Json))
    (nextRound : Nat) : Option (EngineConfig × ConfigUpdateResult) :=
  patch.foldlM (applyConfigParam? render strategyParams)
    (config, { applied := [], errors := [], effectiveRound := nextRound })

end Checked
end Patch
