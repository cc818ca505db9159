import Extremal.Lib.Loop
import Extremal.Lib.Machine
import Extremal.Scoring.Theorems.Nauty
import Extremal.Types.Theorems.Hex
import Extremal.Worker.Engine

open Lexicographic

-- The discoveries that are still to be submitted from a drained batch.
def EngineStage.batch : EngineStage → List ScoredDiscovery
  | .submitting toSubmit => toSubmit
  | _                    => []

-- The points between two rounds. A round whose search panicked ends at the top of the loop.
def EngineStage.betweenRounds : EngineStage → Bool
  | .top | .afterRound | .stopped => true
  | _                             => false

-- The points at which the sets and the buffer are as the last round left them.
def EngineStage.settled : EngineStage → Bool
  | .search | .submitting _ | .trim => false
  | _                               => true

theorem EngineStage.settled_of_betweenRounds {stage : EngineStage} (h : stage.betweenRounds) : stage.settled := by
  cases stage <;> first | rfl | nomatch h

theorem EngineStage.batch_of_settled {stage : EngineStage} (h : stage.settled) : stage.batch = [] := by
  cases stage <;> first | rfl | nomatch h

theorem EngineStage.batch_of_settled_or_search {stage : EngineStage} (h : stage.settled ∨ stage = .search) :
    stage.batch = [] := by
  cases h
  case inl h => exact batch_of_settled h
  case inr h => rw [h]; rfl

def EngineEvent.isControl : EngineEvent → Bool
  | .accepted _ | .submitted _ _ => false
  | _                            => true

-- The CID that a search accepts.
def EngineEvent.acceptedCid : EngineEvent → Option GraphCid
  | .accepted cid => some cid
  | _             => none

-- The CID of a successful call of `submit`.
def EngineEvent.submittedCid : EngineEvent → Option GraphCid
  | .submitted cid true => some cid
  | _                   => none

-- The CID of a call of `submit`.
def EngineEvent.calledCid : EngineEvent → Option GraphCid
  | .submitted cid _ => some cid
  | _                => none

theorem EngineEvent.acceptedCid_of_isControl {e : EngineEvent} (h : e.isControl) : e.acceptedCid = none := by
  cases e <;> first | rfl | nomatch h

theorem EngineEvent.submittedCid_of_isControl {e : EngineEvent} (h : e.isControl) : e.submittedCid = none := by
  cases e <;> first | rfl | nomatch h

theorem EngineEvent.calledCid_of_isControl {e : EngineEvent} (h : e.isControl) : e.calledCid = none := by
  cases e <;> first | rfl | nomatch h

namespace EngineState

variable {setup : EngineSetup} {s s' : EngineState} {input : EngineInput} {cid : GraphCid}
  {discoveries : List RawDiscovery} {result : SearchResult} {batch : List ScoredDiscovery}

def cidsOf (discoveries : List ScoredDiscovery) : Finset GraphCid :=
  (discoveries.map (·.cid)).toFinset

@[simp]
theorem mem_cidsOf {l : List ScoredDiscovery} : cid ∈ cidsOf l ↔ ∃ d ∈ l, d.cid = cid := by
  simp [cidsOf]

def accepted (s : EngineState) : Finset GraphCid :=
  (s.log.filterMap (·.acceptedCid)).toFinset

-- The CIDs for which some call of `submit` has returned `Ok`.
def submittedOk (s : EngineState) : Finset GraphCid :=
  (s.log.filterMap (·.submittedCid)).toFinset

-- What a step that only moves between the stages and handles commands leaves alone.
structure SameCids (s s' : EngineState) : Prop where
  knownCids    : s'.knownCids = s.knownCids
  serverCids   : s'.serverCids = s.serverCids
  dashSentCids : s'.dashSentCids = s.dashSentCids
  submitBuffer : s'.submitBuffer = s.submitBuffer
  cursor       : s'.cidSyncCursor = s.cidSyncCursor
  maxKnownCids : s'.config.maxKnownCids = s.config.maxKnownCids
  offline      : s'.config.offline = s.config.offline
  log          : ∃ events : List EngineEvent, s'.log = s.log ++ events ∧ ∀ e ∈ events, e.isControl

theorem SameCids.refl (s : EngineState) : s.SameCids s where
  knownCids    := rfl
  serverCids   := rfl
  dashSentCids := rfl
  submitBuffer := rfl
  cursor       := rfl
  maxKnownCids := rfl
  offline      := rfl
  log          := ⟨[], by simp, nofun⟩

theorem SameCids.goto {stage : EngineStage} (h : s.SameCids s') : s.SameCids (s'.goto stage) :=
  { h with }

theorem SameCids.record {events : List EngineEvent} (h : s.SameCids s') (he : ∀ e ∈ events, e.isControl) :
    s.SameCids (s'.record events) :=
  have ⟨before, hl, hb⟩ := h.log
  { h with
    log := by
      refine ⟨before ++ events, by rw [EngineState.record, hl, List.append_assoc], fun e hm => ?_⟩
      exact (List.mem_append.mp hm).elim (hb e) (he e) }

theorem SameCids.state {state : WorkerState} (h : s.SameCids s') : s.SameCids { s' with engineState := state } :=
  { h with }

theorem SameCids.gate {gate : Gate} (h : s.SameCids s') : s.SameCids { s' with gate } :=
  { h with }

section Commands

theorem setParam_fixed {config config' : EngineConfig} {name : String} {value : Json}
    (h : config.setParam name value = some config') :
    config'.maxKnownCids = config.maxKnownCids ∧ config'.offline = config.offline := by
  unfold EngineConfig.setParam at h
  split at h
  case h_5 => nomatch h
  all_goals cases h; exact ⟨rfl, rfl⟩

theorem applyConfigParam_fixed (render : Json → String) (strategyParams : List ConfigParam)
    (state : EngineConfig × ConfigUpdateResult) (param : String × Json) :
    (applyConfigParam render strategyParams state param).1.maxKnownCids = state.1.maxKnownCids ∧
    (applyConfigParam render strategyParams state param).1.offline = state.1.offline := by
  simp only [applyConfigParam]
  split
  case h_1 =>
    split
    case isTrue  => exact ⟨rfl, rfl⟩
    case isFalse =>
      split
      case h_1 => exact ⟨rfl, rfl⟩
      case h_2 =>
        split
        case h_1 h => exact setParam_fixed h
        case h_2   => exact ⟨rfl, rfl⟩
  case h_2 =>
    split
    case h_2 => exact ⟨rfl, rfl⟩
    case h_1 =>
      split
      case isTrue  => exact ⟨rfl, rfl⟩
      case isFalse => split <;> exact ⟨rfl, rfl⟩

-- A patch changes neither the limit of the sets nor the mode of the engine.
theorem applyConfigPatch_fixed (render : Json → String) (config : EngineConfig) (strategyParams : List ConfigParam)
    (patch : List (String × Json)) (nextRound : Nat) :
    (applyConfigPatch render config strategyParams patch nextRound).1.maxKnownCids = config.maxKnownCids ∧
    (applyConfigPatch render config strategyParams patch nextRound).1.offline = config.offline := by
  refine Loop.foldl_induction (fun state : EngineConfig × ConfigUpdateResult =>
    state.1.maxKnownCids = config.maxKnownCids ∧ state.1.offline = config.offline) (fun state param _ h => ?_) ⟨rfl, rfl⟩
  have ⟨hm, ho⟩ := applyConfigParam_fixed render strategyParams state param
  exact ⟨hm.trans h.1, ho.trans h.2⟩

theorem SameCids.handle (h : s.SameCids s') (cmd : EngineCommand) : s.SameCids (s'.handle setup cmd) := by
  cases cmd
  case pause | resume | stop => exact h.state
  case getStatus => exact h
  case updateConfig patch =>
    have ⟨hm, ho⟩ := applyConfigPatch_fixed setup.render s'.config setup.strategyParams patch (s'.round + 1)
    refine SameCids.record ?_ (by simp [EngineEvent.isControl])
    exact { h with
      maxKnownCids := hm.trans h.maxKnownCids
      offline      := ho.trans h.offline }

theorem SameCids.startRound (h : s.SameCids s') : s.SameCids (s'.startRound setup) := by
  have h : s.SameCids { s' with round := s'.round + 1 } := { h with }
  exact (h.record (by simp [EngineEvent.isControl])).goto

theorem SameCids.leaveDrain (h : s.SameCids s') : s.SameCids (s'.leaveDrain setup) := by
  rw [EngineState.leaveDrain]
  split
  case h_1 | h_2 => exact h.goto
  case h_3       => exact h.startRound

end Commands

-- What a step does: it moves between the stages, or it is one of the steps that change the sets.
inductive StepCases (setup : EngineSetup) (s : EngineState) : EngineInput → EngineState → Prop
  | control (h : s.SameCids t) (hs : s.stage.settled) (hs' : t.stage.settled ∨ t.stage = .search) : StepCases setup s i t
  | sync (hs : s.stage = .cids) :
    StepCases setup s (.cids (some cids) now) ((s.syncCids setup cids now).goto .search)
  | panic (hs : s.stage = .search) : StepCases setup s (.search none) (s.goto .top)
  | search (hs : s.stage = .search) :
    StepCases setup s (.search (some (found, raw))) (s.finishSearch setup found raw)
  | submit (hs : s.stage = .submitting (discovery :: rest)) :
    StepCases setup s (.submit ok) (s.finishSubmit discovery rest ok)
  | trim (hs : s.stage = .trim) (e : s.trimCids known server dashSent = some t) :
    StepCases setup s (.trim known server dashSent) (t.goto .afterRound)

theorem settled_startRound : (s.startRound setup).stage.settled ∨ (s.startRound setup).stage = .search := by
  rw [startRound, goto]
  split
  case isTrue  => exact .inl rfl
  case isFalse => exact .inr rfl

theorem settled_leaveDrain : (s.leaveDrain setup).stage.settled ∨ (s.leaveDrain setup).stage = .search := by
  rw [leaveDrain]
  split
  case h_1 => left; rw [goto]; split <;> rfl
  case h_2 => exact .inl rfl
  case h_3 => exact settled_startRound

theorem stage_handle (cmd : EngineCommand) : (s.handle setup cmd).stage = s.stage := by
  cases cmd <;> rfl

theorem SameCids.took (cmd : EngineCommand) : s.SameCids (s.record [.took cmd] |>.handle setup cmd) :=
  SameCids.handle ((SameCids.refl s).record <| by simp [EngineEvent.isControl]) cmd

theorem step_cases (e : s.step setup input = some s') : StepCases setup s input s' := by
  simp only [step] at e
  split at e
  case h_1 signalled hs =>
    have hs : s.stage.settled := by rw [hs]; rfl
    split at e
    case isTrue =>
      cases e
      exact .control (SameCids.refl s).goto hs (.inl rfl)
    case isFalse =>
      split at e <;> cases e
      case isTrue  => exact .control (SameCids.refl s).goto hs (.inl rfl)
      case isFalse => exact .control (SameCids.refl s).leaveDrain hs settled_leaveDrain
  case h_2 cmd hs =>
    cases e
    have hs : s.stage.settled := by rw [hs]; rfl
    exact .control (SameCids.took cmd) hs <| .inl <| by rw [stage_handle]; exact hs
  case h_3 hs =>
    cases e
    exact .control (SameCids.refl s).leaveDrain (by rw [hs]; rfl) settled_leaveDrain
  case h_4 cmd hs =>
    have hs : s.stage.settled := by rw [hs]; rfl
    split at e <;> cases e
    case h_1 => exact .control (SameCids.took _).startRound hs settled_startRound
    case h_2 => exact .control (SameCids.took _).goto hs (.inl rfl)
    case h_3 => exact .control (SameCids.took cmd) hs <| .inl <| by rw [stage_handle]; exact hs
  case h_5 signalled hs =>
    have hs : s.stage.settled := by rw [hs]; rfl
    split at e <;> cases e
    case isTrue  => exact .control (SameCids.refl s).state.goto hs (.inl rfl)
    case isFalse => exact .control (SameCids.refl s) hs (.inl hs)
  case h_6 response hs =>
    cases e
    exact .control (SameCids.refl s).gate.goto (by rw [hs]; rfl) (.inl rfl)
  case h_7 response now hs =>
    split at e <;> cases e
    case h_1 => exact .sync hs
    case h_2 => exact .control (SameCids.refl s).goto (by rw [hs]; rfl) (.inr rfl)
  case h_8 outcome hs =>
    split at e <;> cases e
    case h_1 => exact .search hs
    case h_2 => exact .panic hs
  case h_9 discovery rest ok hs =>
    cases e
    exact .submit hs
  case h_10 known server dashSent hs =>
    have ⟨t, ht, hs'⟩ := Option.map_eq_some_iff.mp e
    cases hs'
    exact .trim hs ht
  case h_11 signalled hs =>
    cases e
    exact .control (SameCids.refl s).goto (by rw [hs]; rfl) <| .inl <| by rw [goto]; split <;> rfl
  case h_12 => nomatch e

-- What a trim leaves is a part of the set.
theorem trimmed_subset {set drained : Finset GraphCid} {limit target : Nat} {kept : Finset GraphCid}
    (e : trimmed set limit target drained = some kept) : kept ⊆ set := by
  rw [trimmed] at e
  split at e
  case isTrue =>
    have ⟨_, e⟩ := Option.ite_none_right_eq_some.mp e
    cases e
    exact Finset.sdiff_subset
  case isFalse =>
    cases e
    exact subset_rfl

theorem trimCids_spec {known server dashSent : Finset GraphCid} (e : s.trimCids known server dashSent = some s') :
    ∃ k v d, trimmed s.knownCids (s.config.maxKnownCids * 2) s.config.maxKnownCids known = some k ∧
      trimmed s.serverCids s.config.maxKnownCids (s.config.maxKnownCids / 2) server = some v ∧
      trimmed s.dashSentCids s.config.maxKnownCids (s.config.maxKnownCids / 2) dashSent = some d ∧
      s' = { s with knownCids := k, serverCids := v, dashSentCids := d } := by
  simp only [trimCids, Option.pure_def, Option.bind_eq_bind, Option.bind_eq_some_iff, Option.some.injEq] at e
  have ⟨k, hk, v, hv, d, hd, e⟩ := e
  exact ⟨k, v, d, hk, hv, hd, e.symm⟩

end EngineState

-- An engine whose search may find a path of three vertices.
namespace ReferenceEngine

def engine (hasCommands : Bool) : EngineSetup where
  lib            := ReferenceNauty.crates
  hex            := ReferenceHex.hex
  render _       := ""
  strategyParams := []
  maxK           := 5
  hasClient      := true
  hasCommands    := hasCommands
  hasDashboard   := false

def options (offline : Bool) (maxKnownCids : Nat) : EngineConfig where
  n                      := 3
  maxIters               := 100000
  strategyConfig         := .null
  sampleBias             := 0.8
  maxKnownCids           := maxKnownCids
  offline                := offline
  noiseFlips             := 0
  maxSubmissionsPerRound := 20

def path3Found : EngineInput :=
  .search <| some ({ bestGraph := none, valid := false, iterationsUsed := 0 }, [⟨ReferenceNauty.path3, 0⟩])

def path3Cid : GraphCid :=
  computeCid ReferenceNauty.crates (canonicalForm ReferenceNauty.crates ReferenceNauty.path3).1

end ReferenceEngine
