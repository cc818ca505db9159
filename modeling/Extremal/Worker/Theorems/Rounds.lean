import Extremal.Strategies.Theorems.Truthful
import Extremal.Worker.Rounds
import Extremal.Worker.Theorems.Accounting
import Extremal.Worker.Theorems.Config
import Extremal.Worker.Theorems.Seed

open Lexicographic

-- The configurations ask for the same graphs.
structure EngineConfig.SameTarget (config config' : EngineConfig) : Prop where
  n   : config'.n = config.n
  k   : config'.strategyConfig.get "target_k" = config.strategyConfig.get "target_k"
  ell : config'.strategyConfig.get "target_ell" = config.strategyConfig.get "target_ell"

namespace EngineConfig.SameTarget

variable {config config' config'' : EngineConfig}

theorem refl (config : EngineConfig) : config.SameTarget config :=
  ⟨rfl, rfl, rfl⟩

theorem trans (h : config.SameTarget config') (h' : config'.SameTarget config'') : config.SameTarget config'' where
  n   := h'.n.trans h.n
  k   := h'.k.trans h.k
  ell := h'.ell.trans h.ell

theorem setParam {name : String} {value : Json} (h : config.setParam name value = some config') :
    config.SameTarget config' := by
  unfold EngineConfig.setParam at h
  split at h
  case h_5 => nomatch h
  all_goals cases h; exact ⟨rfl, rfl, rfl⟩

variable {strategy : StrategyInfo} (hs : strategy ∈ StrategyInfo.builtIn) (render : Json → String)
include hs

-- No parameter that can be changed is one of the target.
theorem insert {sp : ConfigParam} {name : String} (hf : strategy.configSchema.find? (·.name = name) = some sp)
    (ha : sp.adjustable) (value : Json) :
    config.SameTarget { config with strategyConfig := config.strategyConfig.insert name value } := by
  have hn : sp.name = name := by simpa using List.find?_some hf
  have hne : ∀ key ∈ ["n", "target_k", "target_ell"], key ≠ name := by
    rintro key hk rfl
    have hp := List.mem_append_right engineConfigParams <| List.mem_of_find?_eq_some hf
    rw [not_adjustable_of_builtIn hs hp (hn ▸ hk)] at ha
    cases ha
  exact ⟨rfl, Json.get_insert_of_ne <| hne _ <| by simp, Json.get_insert_of_ne <| hne _ <| by simp⟩

theorem param (state : EngineConfig × ConfigUpdateResult) (param : String × Json) :
    state.1.SameTarget (applyConfigParam render strategy.configSchema state param).1 := by
  simp only [applyConfigParam]
  split
  case h_1 =>
    split
    case isTrue  => exact refl _
    case isFalse =>
      split
      case h_1 => exact refl _
      case h_2 =>
        split
        case h_1 h => exact setParam h
        case h_2   => exact refl _
  case h_2 =>
    split
    case h_2 => exact refl _
    case h_1 sp hf =>
      split
      case isTrue  => exact refl _
      case isFalse ha =>
        split
        case h_1 => exact refl _
        case h_2 => exact insert hs hf (by simpa using ha) param.2

theorem patch (config : EngineConfig) (entries : List (String × Json)) (nextRound : Nat) :
    config.SameTarget (applyConfigPatch render config strategy.configSchema entries nextRound).1 :=
  Loop.foldl_induction (fun state : EngineConfig × ConfigUpdateResult => config.SameTarget state.1)
    (fun state entry _ h => h.trans <| param hs render state entry) (refl config)

end EngineConfig.SameTarget

namespace EngineState

section Target

variable {setup : EngineSetup} {s s' : EngineState} {input : EngineInput}

theorem config_submitNext (s : EngineState) (toSubmit : List ScoredDiscovery) :
    (s.submitNext toSubmit).config = s.config := by
  rcases submitNext_cases s toSubmit with ⟨_, e⟩ | ⟨_, e⟩ <;> rw [e]
  case inr => rfl
  case inl =>
    rcases capBuffer_cases s with e | ⟨_, _, _, e⟩ <;> rw [e] <;> rfl

theorem config_startSubmit (s : EngineState) : (s.startSubmit setup).config = s.config := by
  rcases startSubmit_cases setup s with e | ⟨_, _, _, e⟩ <;> rw [e]
  case inl => rfl
  case inr => exact config_submitNext ..

theorem config_leaveDrain : (s.leaveDrain setup).config = s.config := by
  rw [leaveDrain]
  split <;> rfl

theorem config_finishSubmit (discovery : ScoredDiscovery) (rest : List ScoredDiscovery) (ok : Bool) :
    (s.finishSubmit discovery rest ok).config = s.config := by
  rw [finishSubmit]
  split <;> exact config_submitNext ..

variable {strategy : StrategyInfo} (hs : strategy ∈ StrategyInfo.builtIn) (hp : setup.strategyParams = strategy.configSchema)
include hs hp

theorem sameTarget_took (cmd : EngineCommand) :
    s.config.SameTarget ((s.record [.took cmd]).handle setup cmd).config := by
  cases cmd
  case updateConfig entries =>
    simp only [handle, hp]
    exact .patch hs setup.render s.config entries (s.round + 1)
  all_goals exact .refl _

-- No command changes what the engine searches for.
theorem sameTarget_step (e : s.step setup input = some s') : s.config.SameTarget s'.config := by
  simp only [step] at e
  split at e
  case h_1 =>
    split at e
    case isTrue => cases e; exact .refl _
    case isFalse =>
      split at e <;> cases e
      case isTrue  => exact .refl _
      case isFalse => rw [config_leaveDrain]; exact .refl _
  case h_2 cmd _ =>
    cases e
    exact sameTarget_took hs hp cmd
  case h_3 =>
    cases e
    rw [config_leaveDrain]
    exact .refl _
  case h_4 cmd _ =>
    split at e <;> cases e
    all_goals exact sameTarget_took hs hp _
  case h_5 => split at e <;> cases e <;> exact .refl _
  case h_6 => cases e; exact .refl _
  case h_7 => split at e <;> cases e <;> exact .refl _
  case h_8 =>
    split at e <;> cases e
    case h_1 => rw [finishSearch, config_startSubmit]; exact .refl _
    case h_2 => exact .refl _
  case h_9 =>
    cases e
    rw [config_finishSubmit]
    exact .refl _
  case h_10 =>
    obtain ⟨t, ht, hs'⟩ := Option.map_eq_some_iff.mp e
    obtain ⟨_, _, _, _, _, _, ht⟩ := trimCids_spec ht
    subst ht hs'
    exact .refl _
  case h_11 => cases e; exact .refl _
  case h_12 => cases e

end Target

end EngineState

-- A discovery of a valid graph together with its CID, its canonical form and its score.
structure ScoredDiscovery.Sound (setup : EngineSetup) (n ell : Nat) (d : ScoredDiscovery) : Prop where
  valid     : d.graph.IsRamsey n setup.maxK ell
  cid       : d.cid = canonicalCid setup.lib d.graph
  canonical : d.canonicalGraph6 = Graph6.encode (canonicalForm setup.lib d.graph).1
  score     : d.score = Engine.score setup.lib n setup.maxK d.graph

-- The CID of an event is that of a valid graph.
def EngineEvent.Sound (setup : EngineSetup) (n ell : Nat) : EngineEvent → Prop
  | .accepted cid | .submitted cid _ => ∃ graph, graph.IsRamsey n setup.maxK ell ∧ cid = canonicalCid setup.lib graph
  | _                                => True

-- The graphs that an input reports are valid.
def EngineInput.Sound (setup : EngineSetup) (n ell : Nat) : EngineInput → Prop
  | .search (some (result, discoveries)) =>
    ∀ d ∈ EngineState.toScore result discoveries, d.graph.IsRamsey n setup.maxK ell
  | _                                    => True

namespace EngineState

structure Sound (setup : EngineSetup) (n ell : Nat) (s : EngineState) : Prop where
  held : ∀ d ∈ s.held, d.Sound setup n ell
  log  : ∀ e ∈ s.log, e.Sound setup n ell

section Sound

variable {setup : EngineSetup} {n ell : Nat} {s s' : EngineState} {input : EngineInput} {discoveries : List RawDiscovery}

theorem sound_newScored (hn : s.config.n = n) (h : ∀ d ∈ discoveries, d.graph.IsRamsey n setup.maxK ell) :
    ∀ d ∈ (s.collect setup discoveries).newScored, d.Sound setup n ell := by
  refine Loop.foldl_induction (fun c : Collected => ∀ d ∈ c.newScored, d.Sound setup n ell)
    (fun c discovery hd hc => ?_) nofun
  simp only [collectOne]
  split_ifs <;> simp only [newScored_sendDiscovery]
  case neg =>
    intro d hm
    rcases List.mem_append.mp hm with hm | hm
    · exact hc d hm
    · cases List.mem_singleton.mp hm
      exact ⟨h discovery hd, rfl, rfl, by rw [hn]⟩
  all_goals exact hc

theorem sound_newlyAccepted (hn : s.config.n = n) (h : input.Sound setup n ell) :
    ∀ d ∈ s.newlyAccepted setup input, d.Sound setup n ell := by
  unfold newlyAccepted
  split
  case h_1 => exact sound_newScored hn h
  case h_2 => nofun

theorem Sound.step (h : s.Sound setup n ell) (hn : s.config.n = n) (hi : input.Sound setup n ell)
    (e : s.step setup input = some s') : s'.Sound setup n ell := by
  have ⟨hh, _, events, hl, ha, hc, _⟩ := accounts_step e
  have hm : ∀ d ∈ s.newlyCalled input ++ s'.held, d.Sound setup n ell := by
    intro d hd
    rcases List.mem_append.mp (hh.subset hd) with hd | hd
    · exact h.held d hd
    · exact sound_newlyAccepted hn hi d hd
  refine ⟨fun d hd => hm d <| List.mem_append_right _ hd, fun event he => ?_⟩
  rcases List.mem_append.mp (hl ▸ he) with hb | hb
  case inl => exact h.log event hb
  case inr =>
    cases event
    case accepted cid =>
      have hd : cid ∈ events.filterMap (·.acceptedCid) := List.mem_filterMap.mpr ⟨_, hb, rfl⟩
      rw [ha] at hd
      have ⟨d, hd, hcid⟩ := List.mem_map.mp hd
      have hs := sound_newlyAccepted hn hi d hd
      exact ⟨d.graph, hs.valid, hcid.symm.trans hs.cid⟩
    case submitted cid ok =>
      have hd : cid ∈ events.filterMap (·.calledCid) := List.mem_filterMap.mpr ⟨_, hb, rfl⟩
      rw [hc] at hd
      have ⟨d, hd, hcid⟩ := List.mem_map.mp hd
      have hs := hm d <| List.mem_append_left _ hd
      exact ⟨d.graph, hs.valid, hcid.symm.trans hs.cid⟩
    all_goals trivial

end Sound
end EngineState

section Strategy

variable {lib : Crates} {strategy : Strategy} {job : SearchJob}

-- A search that returns a valid graph returns one that it has kept.
theorem bestGraph_of_valid {kept : Option AdjacencyMatrix} {other : Option AdjacencyMatrix} {g : AdjacencyMatrix}
    (hk : kept.isSome) (hg : (kept <|> other) = some g) : kept = some g := by
  cases kept
  case none   => cases hk
  case some k => exact hg

-- What a search hands to the engine are valid graphs, its best graph included.
theorem Strategy.reports_valid (hs : strategy ∈ Strategy.builtIn lib) (h : job.Admissible) (rng : Nat → Nat)
    (cancelled : Nat → Bool) :
    ∀ d ∈ EngineState.toScore (strategy.search job rng cancelled).1 (strategy.search job rng cancelled).2.discoveries,
      d.graph.IsRamsey job.n job.targetK job.targetEll := by
  have ⟨hr, hb⟩ : (∀ d ∈ (strategy.search job rng cancelled).2.discoveries,
      d.graph.IsRamsey job.n job.targetK job.targetEll) ∧
      ((strategy.search job rng cancelled).1.valid → ∀ g ∈ (strategy.search job rng cancelled).1.bestGraph,
        g.IsRamsey job.n job.targetK job.targetEll) := by
    simp only [Strategy.builtIn, List.mem_cons, List.not_mem_nil, or_false] at hs
    obtain rfl | rfl := hs
    case inl =>
      refine ⟨(tree2Search_sound lib h rng cancelled).reported.valid, fun hv g hg => ?_⟩
      exact (Tree2Search.valid_final lib h rng cancelled).valid g <| bestGraph_of_valid hv hg
    case inr =>
      refine ⟨(tabuSearch_sound lib h rng cancelled).reported.valid, fun hv g hg => ?_⟩
      exact (tabuFinal_tracks lib h rng cancelled).best g <| bestGraph_of_valid hv hg
  generalize strategy.search job rng cancelled = found at hr hb
  intro d hd
  rcases List.mem_append.mp <| List.mem_of_mem_take hd with hd | hd
  case inl => exact hr d hd
  case inr =>
    cases hg : found.1.bestGraph
    case none   => simp [hg] at hd
    case some g =>
      cases hv : found.1.valid
      case false => simp [hg, hv] at hd
      case true  =>
        simp only [hg, hv, if_true, List.mem_singleton] at hd
        subst hd
        exact hb hv g hg

end Strategy

-- The strategy is one of the built-in ones, and the options ask for graphs that they can search for.
structure WorkerSetup.Admissible (setup : WorkerSetup) : Prop where
  strategy : setup.strategy ∈ Strategy.builtIn setup.lib
  two_le   : 2 ≤ setup.config.n
  le       : setup.config.n ≤ 62
  k        : 3 ≤ setup.config.strategyConfig.getU64 "target_k" 5 % 2 ^ 32
  ell      : 3 ≤ setup.config.strategyConfig.getU64 "target_ell" 5 % 2 ^ 32

def WorkerSetup.targetEll (setup : WorkerSetup) : Nat :=
  setup.config.strategyConfig.getU64 "target_ell" 5 % 2 ^ 32

theorem info_of_builtIn {lib : Crates} {strategy : Strategy} (hs : strategy ∈ Strategy.builtIn lib) :
    strategy.info ∈ StrategyInfo.builtIn := by
  simp only [Strategy.builtIn, List.mem_cons, List.not_mem_nil, or_false] at hs
  obtain rfl | rfl := hs <;> simp [Strategy.tree2, Strategy.tabu, StrategyInfo.builtIn]

-- The graphs that decode have `n` vertices.
def FitGraphs (n : Nat) (graphs : List (List UInt8)) : Prop :=
  ∀ g6 ∈ graphs, ∀ graph, Graph6.decode g6 = .ok graph → graph.n = n

def WorkerInput.Fits (n : Nat) : WorkerInput → Prop
  | .graphs (some response) => FitGraphs n response
  | _                       => True

namespace Worker

structure Sound (setup : WorkerSetup) (w : Worker) : Prop where
  target : setup.config.SameTarget w.engine.config
  graphs : FitGraphs setup.config.n w.serverGraphs
  engine : w.engine.Sound setup.engine setup.config.n setup.targetEll

section Sound

variable {setup : WorkerSetup} {w w' : Worker} {input : WorkerInput} {chance : Chance}

theorem sound_init (setup : WorkerSetup) : (init setup).Sound setup where
  target := .refl _
  graphs := nofun
  engine := ⟨nofun, nofun⟩

variable (h : w.Sound setup) (hs : setup.Admissible)
include h hs

-- Each round finds a graph to start from.
theorem Sound.exists_job (chance : Chance) : ∃ job, w.job? chance = some job ∧ job.Admissible ∧
    job.n = setup.config.n ∧ job.targetK = setup.engine.maxK ∧ job.targetEll = setup.targetEll := by
  have hn := h.target.n
  have ⟨base, seed, _, hp, _, ho, _⟩ := pickSeed?_near (n := w.engine.config.n) (by have := hs.two_le; omega)
    (by have := hs.le; omega) (hn ▸ h.graphs) w.engine.config.sampleBias w.engine.config.noiseFlips.toNat chance.seed
  have hk : w.engine.config.strategyConfig.getU64 "target_k" 5 = setup.config.strategyConfig.getU64 "target_k" 5 := by
    rw [Json.getU64, Json.getU64, h.target.k]
  have he : w.engine.config.strategyConfig.getU64 "target_ell" 5 = setup.config.strategyConfig.getU64 "target_ell" 5 := by
    rw [Json.getU64, Json.getU64, h.target.ell]
  refine ⟨_, by rw [job?, hp]; rfl, ?_, hn, congrArg (· % 2 ^ 32) hk, congrArg (· % 2 ^ 32) he⟩
  exact {
    two_le := hn ▸ hs.two_le
    le     := hn ▸ hs.le
    init   := by simpa using ho
    k      := by rw [SearchJob.targetK, hk]; exact hs.k
    ell    := by rw [SearchJob.targetEll, he]; exact hs.ell }

-- A step of the engine whose input reports valid graphs.
theorem Sound.engine_step {engine : EngineState} {input : EngineInput}
    (hi : input.Sound setup.engine setup.config.n setup.targetEll) (e : w.engine.step setup.engine input = some engine)
    (fetching : Bool) (carryState : Option (Finset UInt64)) :
    Sound setup { w with engine, fetching, carryState } where
  target := h.target.trans <| EngineState.sameTarget_step (info_of_builtIn hs.strategy) rfl e
  graphs := h.graphs
  engine := h.engine.step h.target.n hi e

theorem Sound.step (hi : input.Fits setup.config.n) (e : w.step setup input = some w') : w'.Sound setup := by
  cases input
  case engine input =>
    have hs' : input.Sound setup.engine setup.config.n setup.targetEll := by
      cases input
      case search => nomatch e
      all_goals trivial
    have ⟨engine, he, e⟩ : ∃ engine, w.engine.step setup.engine input = some engine ∧
        { w with engine, fetching := w.fetches engine input } = w' := by
      cases input
      case search => nomatch e
      all_goals exact Option.map_eq_some_iff.mp e
    exact e ▸ h.engine_step hs hs' he _ w.carryState
  case graphs response =>
    have ⟨_, e⟩ := Option.ite_none_right_eq_some.mp e
    cases e
    refine ⟨h.target, ?_, h.engine⟩
    cases response
    case none          => exact h.graphs
    case some response =>
      simp only [setGraphs]
      split
      case isTrue  => exact h.graphs
      case isFalse => exact hi
  case search chance =>
    have ⟨_, e⟩ := Option.ite_none_left_eq_some.mp e
    have ⟨job, hj, ha, hn, hk, hl⟩ := h.exists_job hs chance
    let found := setup.strategy.search job chance.search fun _ => false
    have hv : (EngineInput.search <| some (found.1, found.2.discoveries)).Sound setup.engine setup.config.n
        setup.targetEll := by
      have hv := Strategy.reports_valid hs.strategy ha chance.search fun _ => false
      rwa [hn, hk, hl] at hv
    simp only [search?, hj, Option.bind_eq_bind, Option.bind_some, Option.bind_eq_some_iff] at e
    obtain ⟨engine, he, e⟩ := e
    split at e
    case h_1 =>
      have ⟨seen, _, e⟩ := Option.bind_eq_some_iff.mp e
      cases e
      exact h.engine_step hs hv he w.fetching (some seen)
    case h_2 =>
      cases e
      exact h.engine_step hs hv he w.fetching none
  case panic chance =>
    have ⟨_, e⟩ := Option.ite_none_left_eq_some.mp e
    have ⟨job, hj, _⟩ := h.exists_job hs chance
    simp only [panic?, hj, Option.bind_eq_bind, Option.bind_some, Option.bind_eq_some_iff] at e
    have ⟨engine, he, e⟩ := e
    cases e
    have hv : (EngineInput.search none).Sound setup.engine setup.config.n setup.targetEll := trivial
    exact h.engine_step hs hv he w.fetching none

omit h hs in
-- A step of the worker is one of the engine, or one that the engine does not see.
theorem step_engine (e : w.step setup input = some w') :
    w'.engine = w.engine ∨ ∃ input, w.engine.step setup.engine input = some w'.engine := by
  cases input
  case engine input =>
    cases input
    case search => nomatch e
    all_goals
      have ⟨engine, he, e⟩ := Option.map_eq_some_iff.mp e
      cases e
      exact .inr ⟨_, he⟩
  case graphs =>
    have ⟨_, e⟩ := Option.ite_none_right_eq_some.mp e
    cases e
    exact .inl rfl
  case search chance =>
    have ⟨_, e⟩ := Option.ite_none_left_eq_some.mp e
    simp only [search?, Option.bind_eq_bind, Option.bind_eq_some_iff] at e
    obtain ⟨job, _, engine, he, e⟩ := e
    split at e
    case h_1 =>
      have ⟨seen, _, e⟩ := Option.bind_eq_some_iff.mp e
      cases e
      exact .inr ⟨_, he⟩
    case h_2 =>
      cases e
      exact .inr ⟨_, he⟩
  case panic chance =>
    have ⟨_, e⟩ := Option.ite_none_left_eq_some.mp e
    simp only [panic?, Option.bind_eq_bind, Option.bind_eq_some_iff] at e
    obtain ⟨_, _, engine, he, e⟩ := e
    cases e
    exact .inr ⟨_, he⟩

end Sound

variable {setup : WorkerSetup} {w : Worker}

-- What holds of all runs of the engine holds of the engine of a worker.
theorem run_engine {P : Worker → WorkerInput → Prop} (r : Machine.Run (step setup) P (init setup) w) :
    Machine.Run (EngineState.step setup.engine) (fun _ _ => True) (.init setup.config) w.engine :=
  r.simulate (·.engine) step_engine

-- Whatever a worker accepts, keeps or submits is a graph on `n` vertices without a clique of `target_k` and without
-- an independent set of `target_ell` vertices, whatever commands it gets and whatever graphs on `n` vertices the
-- leaderboard gives it to start from.
theorem worker_vouches (hs : setup.Admissible)
    (r : Machine.Run (step setup) (fun _ input => input.Fits setup.config.n) (init setup) w) :
    w.Sound setup ∧ (∀ chance, ∃ job, w.job? chance = some job) ∧
      Machine.Run (EngineState.step setup.engine) (fun _ _ => True) (.init setup.config) w.engine := by
  have h : w.Sound setup := r.invariant (Sound setup) (fun h hi e => h.step hs hi e) (sound_init setup)
  exact ⟨h, fun chance => (h.exists_job hs chance).imp fun _ hj => hj.1, run_engine r⟩

section Path3

open ReferenceNauty

-- A worker without a server that searches for `R(3, 3)` on three vertices.
def path3Worker : WorkerSetup where
  lib          := crates
  hex          := ReferenceHex.hex
  render _     := ""
  strategy     := .tree2 crates
  config       := { ReferenceEngine.options true 10000 with strategyConfig := path3Job.config, maxIters := 2 }
  hasClient    := false
  hasCommands  := false
  hasDashboard := false

theorem path3Worker_admissible : path3Worker.Admissible where
  strategy := by simp [path3Worker, Strategy.builtIn]
  two_le   := by decide
  le       := by decide
  k        := path3Job_admissible.k
  ell      := path3Job_admissible.ell

theorem path3Worker_vouches :
    ∃ w, Machine.Run (step path3Worker) (fun _ input => input.Fits 3) (init path3Worker) w ∧
      w.engine.accepted.card = 2 ∧ w.Sound path3Worker := by
  let inputs : List WorkerInput := [.engine (.shutdown false), .search ⟨id, id, ∅⟩]
  have ⟨w, e, hc⟩ : ∃ w ∈ Machine.execute (step path3Worker) (init path3Worker) inputs,
      w.engine.accepted.card = 2 := by decide +kernel
  have hf : ∀ input ∈ inputs, input.Fits 3 := by simp [inputs, WorkerInput.Fits]
  have r : Machine.Run (step path3Worker) (fun _ input => input.Fits 3) (init path3Worker) w := .of_forall hf e
  exact ⟨w, r, hc, worker_vouches path3Worker_admissible r |>.1⟩

end Path3
end Worker
