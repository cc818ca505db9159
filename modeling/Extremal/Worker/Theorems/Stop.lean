import Extremal.Worker.Theorems.Engine

-- The worker state that a command asks for.
def EngineCommand.target : EngineCommand → Option WorkerState
  | .pause                      => some .paused
  | .resume                     => some .searching
  | .stop                       => some .idle
  | .getStatus | .updateConfig _ => none

def EngineEvent.target : EngineEvent → Option WorkerState
  | .took cmd => cmd.target
  | _         => none

def EngineEvent.isRound : EngineEvent → Bool
  | .round => true
  | _      => false

namespace EngineState

open Machine

variable {setup : EngineSetup} {s s' : EngineState} {input : EngineInput} {cmd : EngineCommand}

-- The worker states that the taken commands have asked for, in the order of the commands.
def targets (s : EngineState) : List WorkerState :=
  s.log.filterMap (·.target)

-- The second event starts no round, if the first one takes a Stop.
def StopIsFinal (e e' : EngineEvent) : Prop :=
  e.target = some .idle → e'.isRound = false

instance : DecidableRel StopIsFinal :=
  fun e e' => inferInstanceAs <| Decidable (e.target = some .idle → e'.isRound = false)

-- The step starts a round.
def startsRound (setup : EngineSetup) (s : EngineState) (input : EngineInput) : Bool :=
  match s.stage, input with
  | .top, .shutdown false => !setup.hasCommands && s.engineState = .searching
  | .drain, .tryRecv none => s.engineState = .searching
  | .paused, .recv .resume => true
  | _, _ => false

-- Resume does not overrule a Stop: it is not the last command of a drained queue that changes the state of
-- the worker, and a paused worker takes no Resume, if a Stop has been taken.
def obeysStop (s : EngineState) (input : EngineInput) : Prop :=
  match s.stage, input with
  | .drain, .tryRecv none => .idle ∈ s.targets → s.targets.getLast? ≠ some .searching
  | .paused, .recv .resume => .idle ∉ s.targets
  | _, _ => True

instance : Decidable (s.obeysStop input) := by
  unfold obeysStop
  split <;> infer_instance

-- The worker state that the command of the step asks for.
def order (s : EngineState) (input : EngineInput) : Option WorkerState :=
  match s.stage, input with
  | .drain, .tryRecv (some cmd) | .paused, .recv cmd => cmd.target
  | _, _ => none

theorem stage_of_order (h : s.order input ≠ none) : s.stage = .drain ∨ s.stage = .paused := by
  unfold order at h
  split at h
  case h_1 hs => exact .inl hs
  case h_2 hs => exact .inr hs
  case h_3    => exact absurd rfl h

-- What a step adds to the log and how it changes the state of the worker.
structure Effect (setup : EngineSetup) (s : EngineState) (input : EngineInput) (s' : EngineState) : Prop where
  log : ∃ events, s'.log = s.log ++ events ∧ events.Pairwise StopIsFinal ∧
    events.any (·.isRound) = s.startsRound setup input ∧ events.filterMap (·.target) = (s.order input).toList
  state : s'.stage ≠ .stopped → s'.engineState = (s.order input).getD s.engineState
  stage : s'.stage = .drain ∨ s'.stage = .paused → setup.hasCommands ∨ s.stage = .drain ∨ s.stage = .paused

section Steps

variable {events : List EngineEvent}

-- A step that neither takes a command nor starts a round.
theorem Effect.quiet (hr : s.startsRound setup input = false) (ho : s.order input = none)
    (hl : s'.log = s.log ++ events)
    (hq : ∀ e ∈ events, e.target = none ∧ e.isRound = false) (hs : s'.stage ≠ .stopped → s'.engineState = s.engineState)
    (hd : s'.stage = .drain ∨ s'.stage = .paused → setup.hasCommands ∨ s.stage = .drain ∨ s.stage = .paused) :
    Effect setup s input s' where
  log := by
    refine ⟨events, hl, ?_, ?_, ?_⟩
    · exact List.pairwise_iff_forall_sublist.mpr fun h _ => (hq _ <| h.subset (by simp)).2
    · rw [hr, List.any_eq_false]
      exact fun e he => by simp [(hq e he).2]
    · rw [ho, Option.toList_none, List.filterMap_eq_nil_iff]
      exact fun e he => (hq e he).1
  state := by rwa [ho]
  stage := hd

theorem Effect.still (hr : s.startsRound setup input = false) (ho : s.order input = none) (hl : s'.log = s.log)
    (hs : s'.stage ≠ .stopped → s'.engineState = s.engineState)
    (hd : s'.stage = .drain ∨ s'.stage = .paused → setup.hasCommands ∨ s.stage = .drain ∨ s.stage = .paused) :
    Effect setup s input s' :=
  .quiet hr ho (hl.trans (List.append_nil _).symm) nofun hs hd

-- A step that takes a command.
theorem Effect.took (hr : s.startsRound setup input = false) (ho : s.order input = cmd.target)
    (hl : s'.log = s.log ++ .took cmd :: events)
    (hq : ∀ e ∈ events, e.target = none ∧ e.isRound = false)
    (hs : s'.stage ≠ .stopped → s'.engineState = cmd.target.getD s.engineState)
    (hd : s.stage = .drain ∨ s.stage = .paused) : Effect setup s input s' where
  log := by
    refine ⟨_, hl, List.pairwise_cons.mpr ⟨fun e he _ => (hq e he).2, ?_⟩, ?_, ?_⟩
    · exact List.pairwise_iff_forall_sublist.mpr fun h _ => (hq _ <| h.subset (by simp)).2
    · rw [hr, List.any_cons, List.any_eq_false.mpr fun e he => by simp [(hq e he).2]]
      rfl
    · rw [ho, ← List.singleton_append, List.filterMap_append, List.filterMap_eq_nil_iff.mpr fun e he => (hq e he).1]
      cases cmd <;> rfl
  state := by rwa [ho]
  stage := fun _ => .inr hd

theorem handle_effect (cmd : EngineCommand) :
    let s' := s.record [.took cmd] |>.handle setup cmd
    (∃ events, s'.log = s.log ++ .took cmd :: events ∧ ∀ e ∈ events, e.target = none ∧ e.isRound = false) ∧
    s'.engineState = cmd.target.getD s.engineState := by
  cases cmd
  case updateConfig patch =>
    exact ⟨⟨_, List.append_assoc .., by simp [EngineEvent.target, EngineEvent.isRound]⟩, rfl⟩
  all_goals exact ⟨⟨[], rfl, nofun⟩, rfl⟩

theorem startRound_effect : (s.startRound setup).log = s.log ++ [.round] ∧
    (s.startRound setup).engineState = s.engineState ∧
    ¬((s.startRound setup).stage = .drain ∨ (s.startRound setup).stage = .paused) := by
  refine ⟨rfl, rfl, ?_⟩
  simp only [startRound, goto]
  split <;> simp

theorem capBuffer_quiet : s.capBuffer.log = s.log ∧ s.capBuffer.engineState = s.engineState := by
  rw [capBuffer]
  split <;> exact ⟨rfl, rfl⟩

theorem submitNext_quiet (toSubmit : List ScoredDiscovery) :
    (s.submitNext toSubmit).log = s.log ∧ (s.submitNext toSubmit).engineState = s.engineState ∧
    ¬((s.submitNext toSubmit).stage = .drain ∨ (s.submitNext toSubmit).stage = .paused) := by
  cases toSubmit
  case nil  => exact ⟨capBuffer_quiet.1, capBuffer_quiet.2, by simp [submitNext, goto]⟩
  case cons => exact ⟨rfl, rfl, by simp [submitNext, goto]⟩

theorem startSubmit_quiet : (s.startSubmit setup).log = s.log ∧ (s.startSubmit setup).engineState = s.engineState ∧
    ¬((s.startSubmit setup).stage = .drain ∨ (s.startSubmit setup).stage = .paused) := by
  rw [startSubmit]
  split
  case isTrue  => exact submitNext_quiet _
  case isFalse => exact ⟨rfl, rfl, by simp [goto]⟩

end Steps

theorem leaveDrain_effect (hr : s.startsRound setup input = decide (s.engineState = .searching))
    (ho : s.order input = none) : Effect setup s input (s.leaveDrain setup) := by
  rw [leaveDrain]
  split
  case h_1 hs =>
    refine .still (by rw [hr, hs]; rfl) ho rfl (fun _ => rfl) (fun h => ?_)
    by_cases hc : setup.hasCommands
    case pos => exact .inl hc
    case neg => simp [goto, hc] at h
  case h_2 hs => exact .still (by rw [hr, hs]; rfl) ho rfl (fun _ => rfl) (by simp [goto])
  case h_3 hs =>
    obtain ⟨hl, he, hd⟩ := @startRound_effect setup s
    constructor
    case log   => exact ⟨_, hl, List.pairwise_singleton .., by rw [hr, hs]; rfl, by rw [ho]; rfl⟩
    case state => rw [ho]; exact fun _ => he
    case stage => exact fun h => absurd h hd

theorem step_effect (e : s.step setup input = some s') : Effect setup s input s' := by
  simp only [step] at e
  split at e
  case h_1 signalled hs =>
    have ho : s.order (.shutdown signalled) = none := by simp [order, hs]
    split at e
    case isTrue h =>
      cases e
      exact .still (by simp [startsRound, hs, h]) ho rfl (by simp [goto]) (by simp [goto])
    case isFalse h =>
      obtain rfl : signalled = false := by simpa using h
      split at e <;> cases e
      case isTrue hc  => exact .still (by simp [startsRound, hs, hc]) ho rfl (fun _ => rfl) (fun _ => .inl hc)
      case isFalse hc => exact leaveDrain_effect (by simp [startsRound, hs, hc]) ho
  case h_2 cmd hs =>
    cases e
    obtain ⟨⟨events, hl, hq⟩, he⟩ := @handle_effect setup s cmd
    exact .took (by simp [startsRound, hs]) (by simp [order, hs]) hl hq (fun _ => he) (.inl hs)
  case h_3 hs =>
    cases e
    exact leaveDrain_effect (by simp [startsRound, hs]) (by simp [order, hs])
  case h_4 cmd hs =>
    obtain ⟨⟨events, hl, hq⟩, he⟩ := @handle_effect setup s cmd
    have ho : s.order (.recv cmd) = cmd.target := by simp [order, hs]
    split at e <;> cases e
    case h_1 =>
      have hr : s.startsRound setup (.recv .resume) = true := by simp [startsRound, hs]
      constructor
      case log   => exact ⟨[.took .resume, .round], List.append_assoc .., by decide, by rw [hr]; rfl, by rw [ho]; rfl⟩
      case state => rw [ho]; exact fun _ => rfl
      case stage => exact fun h => absurd h startRound_effect.2.2
    case h_2 => exact .took (by simp [startsRound, hs]) ho hl hq (fun _ => he) (.inr hs)
    case h_3 => exact .took (by cases cmd <;> simp_all [startsRound]) ho hl hq (fun _ => he) (.inr hs)
  case h_5 signalled hs =>
    have hr : s.startsRound setup (.shutdown signalled) = false := by simp [startsRound, hs]
    have ho : s.order (.shutdown signalled) = none := by simp [order, hs]
    split at e <;> cases e
    case isTrue  => exact .still hr ho rfl (by simp [goto]) (by simp [goto])
    case isFalse => exact .still hr ho rfl (fun _ => rfl) (fun _ => .inr <| .inr hs)
  case h_6 response hs =>
    cases e
    exact .still (by simp [startsRound, hs]) (by simp [order, hs]) rfl (fun _ => rfl) (by simp [goto])
  case h_7 response now hs =>
    have hr : s.startsRound setup (.cids response now) = false := by simp [startsRound, hs]
    have ho : s.order (.cids response now) = none := by simp [order, hs]
    split at e <;> cases e
    case h_1 => exact .still hr ho rfl (fun _ => rfl) (by simp [goto])
    case h_2 => exact .still hr ho rfl (fun _ => rfl) (by simp [goto])
  case h_8 outcome hs =>
    have hr : s.startsRound setup (.search outcome) = false := by simp [startsRound, hs]
    have ho : s.order (.search outcome) = none := by simp [order, hs]
    split at e <;> cases e
    case h_1 result discoveries =>
      obtain ⟨hl, he, hd⟩ := @startSubmit_quiet setup (s.addToBuffer setup (toScore result discoveries))
      exact .quiet hr ho hl (by simp [EngineEvent.target, EngineEvent.isRound]) (fun _ => he) (fun h => absurd h hd)
    case h_2 => exact .still hr ho rfl (fun _ => rfl) (by simp [goto])
  case h_9 discovery rest ok hs =>
    have hr : s.startsRound setup (.submit ok) = false := by simp [startsRound, hs]
    have ho : s.order (.submit ok) = none := by simp [order, hs]
    cases e
    rw [finishSubmit]
    split
    all_goals refine .quiet hr ho (submitNext_quiet _).1 ?_ (fun _ => (submitNext_quiet _).2.1) (fun h => ?_)
    all_goals first | exact absurd h (submitNext_quiet _).2.2 | simp [EngineEvent.target, EngineEvent.isRound]
  case h_10 known server dashSent hs =>
    obtain ⟨t, ht, hs'⟩ := Option.map_eq_some_iff.mp e
    obtain ⟨k, v, d, _, _, _, ht⟩ := trimCids_spec ht
    subst ht hs'
    exact .still (by simp [startsRound, hs]) (by simp [order, hs]) rfl (fun _ => rfl) (by simp [goto])
  case h_11 signalled hs =>
    cases e
    refine .still (by simp [startsRound, hs]) (by simp [order, hs]) rfl (fun _ => rfl) ?_
    cases signalled <;> simp [goto]
  case h_12 => cases e

-- The state of the worker is the one that the last command has asked for.
structure Follows (setup : EngineSetup) (s : EngineState) : Prop where
  state    : s.stage ≠ .stopped → s.engineState = s.targets.getLast?.getD .searching
  commands : s.stage = .drain ∨ s.stage = .paused ∨ s.targets ≠ [] → setup.hasCommands

theorem follows_step (h : s.Follows setup) (e : s.step setup input = some s') : s'.Follows setup := by
  have ⟨⟨events, hl, _, _, ht⟩, hs, hd⟩ := step_effect e
  have ht : s'.targets = s.targets ++ (s.order input).toList := by rw [targets, hl, List.filterMap_append, ht, targets]
  have hn : s.stage ≠ .stopped := fun hn => by simp [step, hn] at e
  constructor
  case state =>
    intro hn'
    rw [hs hn', ht, h.state hn]
    cases s.order input <;> simp
  case commands =>
    intro hc
    by_cases ho : s.order input = none
    case pos =>
      rw [ht, ho, Option.toList_none, List.append_nil] at hc
      rcases hc with hc | hc | hc
      case inl | inr.inl => exact (hd <| by tauto).elim id fun h' => h.commands <| by tauto
      case inr.inr       => exact h.commands <| .inr <| .inr hc
    case neg =>
      refine h.commands ?_
      exact (stage_of_order ho).imp_right .inl

theorem mem_targets {state : WorkerState} : state ∈ s.targets ↔ ∃ e ∈ s.log, e.target = some state :=
  List.mem_filterMap

theorem startsRound_iff_obeysStop (h : s.Follows setup) :
    (s.startsRound setup input → .idle ∉ s.targets) ↔ s.obeysStop input := by
  unfold startsRound obeysStop
  split
  case h_1 hs =>
    refine iff_of_true (fun hr hi => ?_) (by simp [hs])
    have hc := h.commands <| .inr <| .inr <| List.ne_nil_of_mem hi
    simp [hc] at hr
  case h_2 hs =>
    have he := h.state <| by simp [hs]
    simp only [hs, decide_eq_true_eq]
    refine ⟨fun hr hi hl => hr (by rw [he, hl]; rfl) hi, fun hl hr hi => hl hi ?_⟩
    have ⟨state, hs⟩ := Option.ne_none_iff_exists'.mp <| mt List.getLast?_eq_none_iff.mp <| List.ne_nil_of_mem hi
    rw [he, hs] at hr
    rw [hs, ← hr]
    rfl
  case h_3 hs => simp [hs]
  case h_4 h₁ h₂ h₃ =>
    refine iff_of_true nofun ?_
    split
    case h_1 hs => exact absurd rfl <| h₂ hs
    case h_2 hs => exact absurd rfl <| h₃ hs
    case h_3    => trivial

theorem stopIsFinal_step (h : s.Follows setup) (hf : s.log.Pairwise StopIsFinal) (e : s.step setup input = some s') :
    s'.log.Pairwise StopIsFinal ↔ s.obeysStop input := by
  have ⟨⟨events, hl, he, hr, _⟩, _, _⟩ := step_effect e
  rw [← @startsRound_iff_obeysStop setup _ _ h, ← hr, hl, List.pairwise_append]
  constructor
  case mp =>
    intro ⟨_, _, hc⟩ hr hi
    have ⟨b, hb, hr⟩ := List.any_eq_true.mp hr
    have ⟨a, ha, hi⟩ := mem_targets.mp hi
    simp [hc a ha b hb hi] at hr
  case mpr =>
    refine fun hc => ⟨hf, he, fun a ha b hb hi => ?_⟩
    have hr := mt hc <| not_not_intro <| mem_targets.mpr ⟨a, ha, hi⟩
    simpa using List.any_eq_false.mp (Bool.not_eq_true _ |>.mp hr) b hb

-- The engine starts no round after a Stop if and only if no Resume overrules the Stop.
theorem stop_is_final_iff (setup : EngineSetup) (config : EngineConfig) (inputs : List EngineInput)
    (e : execute (step setup) (init config) inputs = some s) :
    (∀ before, before <+: inputs → ∀ t, execute (step setup) (init config) before = some t →
      t.log.Pairwise StopIsFinal) ↔ Along (step setup) obeysStop (init config) inputs :=
  always_iff_along follows_step stopIsFinal_step ⟨fun _ => rfl, by simp [init, targets]⟩ .nil e

open ReferenceEngine in
theorem stop_after_resume_is_final :
    let run := execute (step <| engine true) (init <| options false 10000)
    let inputs : List EngineInput :=
      [.shutdown false, .tryRecv none, .threshold none, .cids none 0, .search none,
       .shutdown false, .tryRecv (some .resume), .tryRecv (some .stop), .tryRecv none]
    ∀ before, before <+: inputs → ∀ t, run before = some t → t.log.Pairwise StopIsFinal := by
  intro run inputs
  have ⟨s, e⟩ : ∃ s, execute (guarded (step <| engine true) obeysStop) (init <| options false 10000) inputs = some s :=
    Option.isSome_iff_exists.mp <| by decide +kernel
  have ⟨e, ha⟩ := along_of_guarded e
  exact (stop_is_final_iff _ _ inputs e).mpr ha

-- A Stop and a Resume that wait together.
open ReferenceEngine in
theorem resume_overrules_stop :
    ∃ s ∈ execute (step <| engine true) (init <| options false 10000)
        [.shutdown false, .tryRecv (some .stop), .tryRecv (some .resume), .tryRecv none],
      ¬s.log.Pairwise StopIsFinal := by
  decide +kernel

end EngineState
