import Extremal.Lib.IntegerFloat
import Extremal.Worker.Snapshot

namespace Json

variable {json value : Json} {key key' : String}

theorem get_insert_self (fields : List (String × Json)) : ((object fields).insert key value).get key = some value := by
  have hf : (fields.filter (·.1 ≠ key)).lookup key = none := by
    refine List.lookup_eq_none_iff.mpr fun e he => ?_
    have hk : e.1 ≠ key := of_decide_eq_true (List.mem_filter.mp he).2
    simpa using hk.symm
  change (fields.filter (·.1 ≠ key) ++ [(key, value)]).lookup key = _
  rw [List.lookup_append, hf]
  simp

theorem lookup_filter_of_ne (h : key' ≠ key) (fields : List (String × Json)) :
    (fields.filter (·.1 ≠ key)).lookup key' = fields.lookup key' := by
  induction fields with
  | nil => rfl
  | cons field fields ih =>
    obtain ⟨k, v⟩ := field
    by_cases hk : k = key
    case pos =>
      have hb : (key' == k) = false := by simpa [hk] using h
      rw [List.filter_cons_of_neg (by simpa using hk), ih, List.lookup_cons, hb]
    case neg => rw [List.filter_cons_of_pos (by simpa using hk), List.lookup_cons, List.lookup_cons, ih]

theorem get_insert_of_ne (h : key' ≠ key) : (json.insert key value).get key' = json.get key' := by
  cases json
  case object fields =>
    change (fields.filter (·.1 ≠ key) ++ [(key, value)]).lookup key' = fields.lookup key'
    have hb : (key' == key) = false := by simpa using h
    rw [List.lookup_append, lookup_filter_of_ne h, List.lookup_cons, hb]
    exact Option.or_none
  all_goals rfl

-- Lists and texts are neither numbers nor booleans.
def scalar : Json → Option (ℚ ⊕ Bool)
  | bool b   => some <| .inr b
  | posInt n => some <| .inl n.toNat
  | negInt n => some <| .inl n.toInt
  | float x  => IntegerFloat.value x |>.map .inl
  | _        => none

theorem isFinite_asF64 (h : value.WellFormed) : ∀ x ∈ value.asF64, x.isFinite := by
  intro x hx
  cases value
  case posInt n =>
    cases hx
    exact IntegerFloat.isFinite_uint64 n
  case negInt n =>
    cases hx
    exact IntegerFloat.isFinite_int64 h
  case float =>
    cases hx
    exact h
  all_goals cases hx

-- No negative integer lies in a range without negative numbers.
theorem eq_posInt {min v : Int} (h : value.WellFormed) (hv : value.asI64 = some v) (hm : 0 ≤ min) (hl : min ≤ v) :
    ∃ n, value = posInt n ∧ (n.toNat : Int) = v := by
  cases value
  case posInt n =>
    rw [asI64] at hv
    split at hv
    case isTrue  => exact ⟨n, rfl, Option.some_inj.mp hv⟩
    case isFalse => cases hv
  case negInt n =>
    cases hv
    exact absurd h (by simp only [WellFormed]; omega)
  all_goals cases hv

end Json

-- The values that a parameter of a type may have.
def ParamType.Fits (value : Json) : ParamType → Prop
  | int min max   => ∃ v ∈ value.asI64, min ≤ v ∧ v ≤ max
  | float min max => ∃ x ∈ value.asF64, min ≤ x ∧ x ≤ max
  | bool          => ∃ b, value = .bool b

def ParamType.Bounded : ParamType → Prop
  | float min max => min.isFinite ∧ max.isFinite
  | _             => True

section Patch

variable {render : Json → String} {param : ConfigParam} {value : Json}

theorem fits_of_validate (hb : param.paramType.Bounded) (hw : value.WellFormed)
    (h : validateParamValue render param value = .ok ()) : param.paramType.Fits value := by
  rw [validateParamValue.eq_def] at h
  cases ht : param.paramType
  case int min max =>
    rw [ht] at h
    cases hv : value.asI64
    case none =>
      simp only [hv] at h
      cases h
    case some v =>
      simp only [hv] at h
      split at h
      case isTrue  => cases h
      case isFalse hr => exact ⟨v, hv, by omega, by omega⟩
  case float min max =>
    rw [ht] at h hb
    cases hv : value.asF64
    case none =>
      simp only [hv] at h
      cases h
    case some x =>
      simp only [hv] at h
      split at h
      case isTrue  => cases h
      case isFalse hr =>
        have ⟨hl, hr⟩ := not_or.mp hr
        have hx := Json.isFinite_asF64 hw x hv
        exact ⟨x, hv, IntegerFloat.le_of_not_lt hx hb.1 hl, IntegerFloat.le_of_not_lt hb.2 hx hr⟩
  case bool =>
    rw [ht] at h
    cases value
    case bool b => exact ⟨b, rfl⟩
    all_goals cases h

theorem isSome_scalar {type : ParamType} (hw : value.WellFormed) (h : type.Fits value) : value.scalar.isSome := by
  cases value
  case float x => exact Option.isSome_map.trans <| IntegerFloat.isSome_value hw
  case bool | posInt | negInt => rfl
  all_goals
    cases type
    case int   => obtain ⟨v, hv, -⟩ := h; cases hv
    case float => obtain ⟨v, hv, -⟩ := h; cases hv
    case bool  => obtain ⟨b, hb⟩ := h; cases hb

end Patch

-- Two configurations agree but for the parameters that have changed.
structure EngineConfig.Agrees (changed : String → Prop) (config config' : EngineConfig) : Prop where
  n                      : config'.n = config.n
  maxKnownCids           : config'.maxKnownCids = config.maxKnownCids
  offline                : config'.offline = config.offline
  maxIters               : ¬changed "max_iters" → config'.maxIters = config.maxIters
  sampleBias             : ¬changed "sample_bias" → config'.sampleBias = config.sampleBias
  noiseFlips             : ¬changed "noise_flips" → config'.noiseFlips = config.noiseFlips
  maxSubmissionsPerRound : ¬changed "max_submissions_per_round" →
    config'.maxSubmissionsPerRound = config.maxSubmissionsPerRound
  strategyConfig         : ∀ key, ¬changed key → config'.strategyConfig.get key = config.strategyConfig.get key

namespace EngineConfig

variable {config config' config'' : EngineConfig} {changed changed' : String → Prop} {p : ConfigParam} {value : Json}

theorem Agrees.refl : config.Agrees changed config := by
  constructor <;> intros <;> rfl

theorem Agrees.mono (h : config.Agrees changed config') (hc : ∀ name, changed name → changed' name) :
    config.Agrees changed' config' where
  n                          := h.n
  maxKnownCids               := h.maxKnownCids
  offline                    := h.offline
  maxIters hn                := h.maxIters <| hn ∘ hc _
  sampleBias hn              := h.sampleBias <| hn ∘ hc _
  noiseFlips hn              := h.noiseFlips <| hn ∘ hc _
  maxSubmissionsPerRound hn  := h.maxSubmissionsPerRound <| hn ∘ hc _
  strategyConfig key hn      := h.strategyConfig key <| hn ∘ hc _

theorem Agrees.trans (h : config.Agrees changed config') (h' : config'.Agrees changed config'') :
    config.Agrees changed config'' where
  n                          := h'.n.trans h.n
  maxKnownCids               := h'.maxKnownCids.trans h.maxKnownCids
  offline                    := h'.offline.trans h.offline
  maxIters hn                := (h'.maxIters hn).trans <| h.maxIters hn
  sampleBias hn              := (h'.sampleBias hn).trans <| h.sampleBias hn
  noiseFlips hn              := (h'.noiseFlips hn).trans <| h.noiseFlips hn
  maxSubmissionsPerRound hn  := (h'.maxSubmissionsPerRound hn).trans <| h.maxSubmissionsPerRound hn
  strategyConfig key hn      := (h'.strategyConfig key hn).trans <| h.strategyConfig key hn

theorem Agrees.engineValue (h : config.Agrees changed config') (hp : ¬changed p.name) :
    config'.engineValue p = config.engineValue p := by
  rw [EngineConfig.engineValue.eq_def, EngineConfig.engineValue.eq_def]
  split
  case h_1 hn => rw [h.maxIters (hn ▸ hp)]
  case h_2 hn => rw [h.sampleBias (hn ▸ hp)]
  case h_3 hn => rw [h.noiseFlips (hn ▸ hp)]
  case h_4 hn => rw [h.maxSubmissionsPerRound (hn ▸ hp)]
  case h_5    => rw [h.n]
  case h_6    => rfl

theorem Agrees.strategyValue (h : config.Agrees changed config') (hp : ¬changed p.name) :
    config'.strategyValue p = config.strategyValue p := by
  rw [EngineConfig.strategyValue, EngineConfig.strategyValue, h.strategyConfig p.name hp]

-- A number between 0 and 1 is the same number as a float.
theorem scalar_ofFloat {x : Float} (hw : value.WellFormed) (hx : value.asF64 = some x) (hl : 0.0 ≤ x) (hr : x ≤ 1.0) :
    (Json.ofFloat x).scalar = value.scalar := by
  rw [Json.ofFloat, if_pos <| Json.isFinite_asF64 hw x hx]
  cases value
  case posInt n =>
    cases hx
    have hn : n.toNat ≤ 1 := by
      by_contra hn
      exact IntegerFloat.not_lt_of_le hr <| IntegerFloat.one_lt_uint64 (by omega)
    exact congrArg (Option.map Sum.inl) <| IntegerFloat.value_uint64 hn
  case negInt n =>
    cases hx
    exact absurd (IntegerFloat.int64_lt_zero hw) <| IntegerFloat.not_lt_of_le hl
  case float =>
    cases hx
    rfl
  all_goals cases hx

-- A value that fits is written without a panic, and is what the engine reports from then on.
theorem setParam_spec (config : EngineConfig) (hp : p ∈ engineConfigParams) (ha : p.adjustable) (hw : value.WellFormed)
    (hf : p.paramType.Fits value) :
    ∃ config', config.setParam? p.name value = some (some config') ∧ config.setParam p.name value = some config' ∧
      config'.strategyConfig = config.strategyConfig ∧ config.Agrees (· = p.name) config' ∧
      (config'.engineValue p).scalar = value.scalar := by
  simp only [engineConfigParams, List.mem_cons, List.not_mem_nil, or_false] at hp
  obtain rfl | rfl | rfl | rfl | rfl := hp
  -- The iterations.
  · obtain ⟨v, hv, hl, hr⟩ := hf
    obtain ⟨n, rfl, -⟩ := Json.eq_posInt hw hv (by decide) hl
    refine ⟨_, rfl, rfl, rfl, ?_, congrArg (Json.scalar <| .posInt ·) n.ofNat_toNat⟩
    constructor <;> intros <;> first | rfl | exact absurd rfl ‹_›
  -- The bias.
  · obtain ⟨x, hx, hl, hr⟩ := hf
    refine ⟨{ config with sampleBias := x }, ?_, ?_, rfl, ?_, scalar_ofFloat hw hx hl hr⟩
    · exact congrArg (Option.map _) hx
    · exact congrArg (fun y => some { config with sampleBias := Option.getD y 0.0 }) hx
    · constructor <;> intros <;> first | rfl | exact absurd rfl ‹_›
  -- The flips.
  · obtain ⟨v, hv, hl, hr⟩ := hf
    obtain ⟨n, rfl, hn⟩ := Json.eq_posInt hw hv (by decide) hl
    have hc : (UInt32.ofNat n.toNat).toUInt64 = n := by
      rw [← UInt64.toNat_inj, UInt32.toNat_toUInt64, UInt32.toNat_ofNat']
      omega
    refine ⟨_, rfl, rfl, rfl, ?_, congrArg (Json.scalar <| .posInt ·) hc⟩
    constructor <;> intros <;> first | rfl | exact absurd rfl ‹_›
  -- The submissions.
  · obtain ⟨v, hv, hl, hr⟩ := hf
    obtain ⟨n, rfl, -⟩ := Json.eq_posInt hw hv (by decide) hl
    refine ⟨_, rfl, rfl, rfl, ?_, congrArg (Json.scalar <| .posInt ·) n.ofNat_toNat⟩
    constructor <;> intros <;> first | rfl | exact absurd rfl ‹_›
  -- The vertices.
  · cases ha

end EngineConfig

-- The value of a parameter.
def EngineSnapshot.value? (snapshot : EngineSnapshot) (name : String) : Option Json :=
  snapshot.config.params.find? (·.param.name = name) |>.map (·.value)

section Step

variable {render : Json → String} {strategy : StrategyInfo} {config config' : EngineConfig} {name : String} {value : Json}
  {result : ConfigUpdateResult} {state : WorkerState} {workerId keyId : String} {stats : EngineStats}

theorem name_of_find? {params : List ConfigParam} {p : ConfigParam} (h : params.find? (·.name = name) = some p) :
    p.name = name := by
  simpa using List.find?_some h

theorem value?_buildSnapshot : (buildSnapshot state config strategy workerId keyId stats).value? name =
    (engineConfigParams.find? (·.name = name) |>.map config.engineValue).or
      (strategy.configSchema.find? (·.name = name) |>.map config.strategyValue) := by
  rw [EngineSnapshot.value?, buildSnapshot, List.find?_append, List.find?_map, List.find?_map, Option.map_or,
    Option.map_map, Option.map_map]
  rfl

theorem EngineConfig.Agrees.value? {changed : String → Prop} (h : config.Agrees changed config') (hn : ¬changed name) :
    (buildSnapshot state config' strategy workerId keyId stats).value? name =
    (buildSnapshot state config strategy workerId keyId stats).value? name := by
  have hp {params : List ConfigParam} {p : ConfigParam} (hf : params.find? (·.name = name) = some p) : ¬changed p.name :=
    name_of_find? hf ▸ hn
  rw [value?_buildSnapshot, value?_buildSnapshot, Option.map_congr fun p hf => h.engineValue (hp hf),
    Option.map_congr fun p hf => h.strategyValue (hp hf)]

-- An adjustable parameter has a value that fits, and the engine reports this number or boolean.
structure EngineConfig.Holds (strategy : StrategyInfo) (config : EngineConfig) (name : String) (value : Json) : Prop where
  param    : ∃ p ∈ engineConfigParams ++ strategy.configSchema, p.name = name ∧ p.adjustable ∧ p.paramType.Fits value
  scalar   : value.scalar.isSome
  reported : ∀ state workerId keyId stats, ∃ reported,
    (buildSnapshot state config strategy workerId keyId stats).value? name = some reported ∧ reported.scalar = value.scalar

theorem EngineConfig.Holds.agrees {changed : String → Prop} (h : config.Holds strategy name value)
    (ha : config.Agrees changed config') (hn : ¬changed name) : config'.Holds strategy name value where
  param  := h.param
  scalar := h.scalar
  reported state workerId keyId stats := by
    rw [ha.value? hn]
    exact h.reported state workerId keyId stats

structure EngineConfig.Sets (strategy : StrategyInfo) (config : EngineConfig) (name : String) (value : Json)
    (config' : EngineConfig) : Prop where
  object : ∃ fields, config'.strategyConfig = .object fields
  agrees : config.Agrees (· = name) config'
  holds  : config'.Holds strategy name value

theorem insert_sets {fields : List (String × Json)} {sp : ConfigParam} (hc : config.strategyConfig = .object fields)
    (he : engineConfigParams.find? (·.name = name) = none)
    (hs : strategy.configSchema.find? (·.name = name) = some sp) (ha : sp.adjustable) (hw : value.WellFormed)
    (hf : sp.paramType.Fits value) :
    config.Sets strategy name value { config with strategyConfig := config.strategyConfig.insert name value } where
  object := ⟨_, congrArg (Json.insert · name value) hc⟩
  agrees := by
    constructor
    case strategyConfig => exact fun key hk => Json.get_insert_of_ne hk
    all_goals intros; rfl
  holds := by
    have hn : sp.name = name := name_of_find? hs
    refine ⟨⟨sp, List.mem_append_right _ <| List.mem_of_find?_eq_some hs, hn, ha, hf⟩, isSome_scalar hw hf, ?_⟩
    intro state workerId keyId stats
    refine ⟨value, ?_, rfl⟩
    rw [value?_buildSnapshot, he, hs, Option.map_none, Option.none_or, Option.map_some, EngineConfig.strategyValue, hn, hc,
      Json.get_insert_self, Option.getD_some]

theorem applyConfigParam_cases (render : Json → String) (result : ConfigUpdateResult) (name : String)
    (hb : ∀ p ∈ engineConfigParams ++ strategy.configSchema, p.paramType.Bounded)
    (hc : ∃ fields, config.strategyConfig = .object fields) (hw : value.WellFormed) :
    ∃ state, applyConfigParam? render strategy.configSchema (config, result) (name, value) = some state ∧
      applyConfigParam render strategy.configSchema (config, result) (name, value) = state ∧
      ((∃ error, state = (config, result.reject name error)) ∨
        ∃ config', state = (config', result.apply name) ∧ config.Sets strategy name value config') := by
  rw [applyConfigParam?, applyConfigParam]
  cases he : engineConfigParams.find? (·.name = name)
  case some ep =>
    have hp : ep ∈ engineConfigParams := List.mem_of_find?_eq_some he
    obtain rfl : ep.name = name := name_of_find? he
    dsimp only
    cases ha : ep.adjustable
    case false => exact ⟨_, rfl, rfl, .inl ⟨_, rfl⟩⟩
    case true =>
      cases hv : validateParamValue render ep value
      case error e => exact ⟨_, rfl, rfl, .inl ⟨_, rfl⟩⟩
      case ok =>
        have hf := fits_of_validate (hb ep <| List.mem_append_left _ hp) hw hv
        obtain ⟨config', h?, h, hs, ha', hr⟩ := config.setParam_spec hp ha hw hf
        dsimp only
        rw [h?, h]
        refine ⟨_, rfl, rfl, .inr ⟨config', rfl, ?_⟩⟩
        refine ⟨hs ▸ hc, ha', ⟨ep, List.mem_append_left _ hp, rfl, ha, hf⟩, isSome_scalar hw hf, ?_⟩
        intro state workerId keyId stats
        refine ⟨_, ?_, hr⟩
        rw [value?_buildSnapshot, he]
        rfl
  case none =>
    dsimp only
    cases hs : strategy.configSchema.find? (·.name = name)
    case none => exact ⟨_, rfl, rfl, .inl ⟨_, rfl⟩⟩
    case some sp =>
      dsimp only
      cases ha : sp.adjustable
      case false => exact ⟨_, rfl, rfl, .inl ⟨_, rfl⟩⟩
      case true =>
        cases hv : validateParamValue render sp value
        case error e => exact ⟨_, rfl, rfl, .inl ⟨_, rfl⟩⟩
        case ok =>
          obtain ⟨fields, hc⟩ := hc
          have hf := fits_of_validate (hb sp <| List.mem_append_right _ <| List.mem_of_find?_eq_some hs) hw hv
          exact ⟨_, rfl, rfl, .inr ⟨_, rfl, insert_sets hc he hs ha hw hf⟩⟩

end Step

-- The state after some entries of a patch.
structure Patched (strategy : StrategyInfo) (config : EngineConfig) (entries : List (String × Json))
    (state : EngineConfig × ConfigUpdateResult) : Prop where
  object      : ∃ fields, state.1.strategyConfig = .object fields
  partitioned : (state.2.applied ++ state.2.errors.map (·.1)).Perm (entries.map (·.1))
  effective   : ∀ name ∈ state.2.applied, ∃ value, (name, value) ∈ entries ∧ state.1.Holds strategy name value
  agrees      : config.Agrees (· ∈ state.2.applied) state.1

namespace Patched

variable {render : Json → String} {strategy : StrategyInfo} {config config' config'' : EngineConfig} {name error : String}
  {value : Json} {entries : List (String × Json)} {result : ConfigUpdateResult}

theorem reject (h : Patched strategy config entries (config', result)) :
    Patched strategy config (entries ++ [(name, value)]) (config', result.reject name error) where
  object      := h.object
  partitioned := by
    rw [ConfigUpdateResult.reject, List.map_append, List.map_append, ← List.append_assoc]
    exact h.partitioned.append_right [name]
  effective name hn :=
    have ⟨value, hm, hv⟩ := h.effective name hn
    ⟨value, List.mem_append_left _ hm, hv⟩
  agrees      := h.agrees

theorem apply (h : Patched strategy config entries (config', result)) (hn : name ∉ entries.map (·.1))
    (hs : config'.Sets strategy name value config'') :
    Patched strategy config (entries ++ [(name, value)]) (config'', result.apply name) where
  object      := hs.object
  partitioned := by
    rw [ConfigUpdateResult.apply, List.map_append, List.append_assoc]
    exact List.perm_middle.trans <| (h.partitioned.cons name).trans <| (List.perm_append_singleton _ _).symm
  effective name' ha := by
    obtain hm | hm := List.mem_append.mp ha
    case inl =>
      have ⟨value', he, hv⟩ := h.effective name' hm
      have hne : name' ≠ name := by
        rintro rfl
        exact hn <| h.partitioned.mem_iff.mp <| List.mem_append_left _ hm
      exact ⟨value', List.mem_append_left _ he, hv.agrees hs.agrees hne⟩
    case inr =>
      obtain rfl := List.mem_singleton.mp hm
      exact ⟨value, List.mem_append_right _ <| List.mem_singleton.mpr rfl, hs.holds⟩
  agrees      := by
    refine (h.agrees.mono ?_).trans (hs.agrees.mono ?_)
    · exact fun _ hm => List.mem_append_left _ hm
    · rintro _ rfl
      exact List.mem_append_right _ <| List.mem_singleton.mpr rfl

section Run

variable (render : Json → String) (hb : ∀ p ∈ engineConfigParams ++ strategy.configSchema, p.paramType.Bounded)
include hb

theorem step {state : EngineConfig × ConfigUpdateResult} (h : Patched strategy config entries state)
    (hn : name ∉ entries.map (·.1)) (hw : value.WellFormed) :
    applyConfigParam? render strategy.configSchema state (name, value) =
      some (applyConfigParam render strategy.configSchema state (name, value)) ∧
    Patched strategy config (entries ++ [(name, value)])
      (applyConfigParam render strategy.configSchema state (name, value)) := by
  obtain ⟨config', result⟩ := state
  obtain ⟨_, h?, rfl, hr⟩ := applyConfigParam_cases render result name hb h.object hw
  refine ⟨h?, ?_⟩
  obtain ⟨error, hr⟩ | ⟨config'', ha, hs⟩ := hr
  case inl => exact hr ▸ h.reject
  case inr => exact ha ▸ h.apply hn hs

theorem run (hc : ∃ fields, config.strategyConfig = .object fields) (nextRound : Nat) (hn : (entries.map (·.1)).Nodup)
    (hw : ∀ e ∈ entries, e.2.WellFormed) :
    applyConfigPatch? render config strategy.configSchema entries nextRound =
      some (applyConfigPatch render config strategy.configSchema entries nextRound) ∧
    Patched strategy config entries (applyConfigPatch render config strategy.configSchema entries nextRound) := by
  induction entries using List.reverseRecOn with
  | nil =>
    refine ⟨rfl, hc, .nil, ?_, .refl⟩
    rintro _ ⟨⟩
  | append_singleton entries e ih =>
    obtain ⟨name, value⟩ := e
    rw [List.map_append, List.nodup_append] at hn
    have ⟨h?, h⟩ := ih hn.1 fun e he => hw e <| List.mem_append_left _ he
    have hm : name ∉ entries.map (·.1) := fun hm => hn.2.2 name hm name (List.mem_singleton.mpr rfl) rfl
    have he : value.WellFormed := hw (name, value) <| List.mem_append_right _ <| List.mem_singleton.mpr rfl
    have ⟨hs?, hs⟩ := h.step render hb hm he
    rw [applyConfigPatch?, applyConfigPatch, List.foldlM_append, List.foldl_concat, ← applyConfigPatch?, h?,
      ← applyConfigPatch]
    exact ⟨(bind_pure _).trans hs?, hs⟩

end Run
end Patched

-- A map whose values `serde_json` has built, with its entries in the order in which it yields them.
structure ConfigPatch where
  entries    : List (String × Json)
  nodup      : (entries.map (·.1)).Nodup
  wellFormed : ∀ e ∈ entries, e.2.WellFormed

-- Each name is either applied or rejected, what is applied takes effect, and nothing else changes.
structure Contained (strategy : StrategyInfo) (config : EngineConfig) (patch : ConfigPatch) (config' : EngineConfig)
    (result : ConfigUpdateResult) : Prop where
  partitioned : (result.applied ++ result.errors.map (·.1)).Perm (patch.entries.map (·.1))
  nodup       : (result.applied ++ result.errors.map (·.1)).Nodup
  effective   : ∀ name ∈ result.applied, ∃ value, (name, value) ∈ patch.entries ∧ config'.Holds strategy name value
  fixed       : "n" ∉ result.applied ∧ "target_k" ∉ result.applied ∧ "target_ell" ∉ result.applied
  agrees      : config.Agrees (· ∈ result.applied) config'
  unchanged   : ∀ name, name ∉ result.applied → ∀ state workerId keyId stats,
    (buildSnapshot state config' strategy workerId keyId stats).value? name =
    (buildSnapshot state config strategy workerId keyId stats).value? name

section BuiltIn

variable {strategy : StrategyInfo} {p : ConfigParam}

theorem bounded_of_builtIn (hs : strategy ∈ StrategyInfo.builtIn) :
    ∀ p ∈ engineConfigParams ++ strategy.configSchema, p.paramType.Bounded := by
  have h0 : (0.0 : Float).isFinite := by decide
  have h1 : (1.0 : Float).isFinite := by decide
  simp only [StrategyInfo.builtIn, List.mem_cons, List.not_mem_nil, or_false] at hs
  obtain rfl | rfl := hs <;>
    simp [engineConfigParams, StrategyInfo.tree2, StrategyInfo.tabu, ParamType.Bounded, h0, h1]

theorem not_adjustable_of_builtIn (hs : strategy ∈ StrategyInfo.builtIn)
    (hp : p ∈ engineConfigParams ++ strategy.configSchema) (hn : p.name ∈ ["n", "target_k", "target_ell"]) :
    p.adjustable = false := by
  have h : ∀ strategy ∈ StrategyInfo.builtIn, ∀ p ∈ engineConfigParams ++ strategy.configSchema,
    p.name ∈ ["n", "target_k", "target_ell"] → p.adjustable = false := by decide
  exact h strategy hs p hp hn

end BuiltIn

namespace ConfigPatch

theorem contained (render : Json → String) {strategy : StrategyInfo} (hs : strategy ∈ StrategyInfo.builtIn)
    (config : EngineConfig) (hc : ∃ fields, config.strategyConfig = .object fields) (patch : ConfigPatch)
    (nextRound : Nat) :
    ∃ config' result, applyConfigPatch? render config strategy.configSchema patch.entries nextRound =
        some (config', result) ∧
      applyConfigPatch render config strategy.configSchema patch.entries nextRound = (config', result) ∧
      Contained strategy config patch config' result := by
  have ⟨h?, h⟩ := Patched.run render (bounded_of_builtIn hs) hc nextRound patch.nodup patch.wellFormed
  refine ⟨_, _, h?, rfl, ?_⟩
  have hf (name : String) (hn : name ∈ ["n", "target_k", "target_ell"])
      (ha : name ∈ (applyConfigPatch render config strategy.configSchema patch.entries nextRound).2.applied) : False := by
    have ⟨value, _, hv⟩ := h.effective name ha
    have ⟨p, hp, hpn, hpa, _⟩ := hv.param
    have hna := not_adjustable_of_builtIn hs hp (hpn ▸ hn)
    rw [hna] at hpa
    cases hpa
  exact {
    partitioned := h.partitioned
    nodup       := h.partitioned.nodup_iff.mpr patch.nodup
    effective   := h.effective
    fixed       := ⟨hf "n" (by simp), hf "target_k" (by simp), hf "target_ell" (by simp)⟩
    agrees      := h.agrees
    unchanged   := fun name hn _ _ _ _ => h.agrees.value? hn }

-- An integer for the bias, a number in its range, a value of a wrong type and a parameter that cannot be changed.
def mixed : ConfigPatch where
  entries    := [("sample_bias", .posInt 1), ("beam_width", .posInt 50), ("focused", .negInt (-1)), ("target_k", .posInt 4)]
  nodup      := by decide
  wellFormed := by simp [Json.WellFormed]

def defaultConfig : EngineConfig where
  n                      := 25
  maxIters               := 100000
  strategyConfig         := .object [("beam_width", .posInt 100), ("target_k", .posInt 5)]
  sampleBias             := 0.8
  maxKnownCids           := 10000
  offline                := false
  noiseFlips             := 0
  maxSubmissionsPerRound := 20

theorem contained_mixed : (∃ config' result, applyConfigPatch? (fun _ => "") defaultConfig StrategyInfo.tree2.configSchema
      mixed.entries 1 = some (config', result) ∧
      applyConfigPatch (fun _ => "") defaultConfig StrategyInfo.tree2.configSchema mixed.entries 1 = (config', result) ∧
      Contained .tree2 defaultConfig mixed config' result) ∧
    (applyConfigPatch (fun _ => "") defaultConfig StrategyInfo.tree2.configSchema mixed.entries 1).2.applied =
      ["sample_bias", "beam_width"] :=
  ⟨contained _ (by simp [StrategyInfo.builtIn]) defaultConfig ⟨_, rfl⟩ mixed 1, by decide⟩

end ConfigPatch
