import Extremal.Lib.Machine
import Extremal.Worker.Api
import Extremal.Worker.Theorems.Accounting
import Extremal.Worker.Theorems.Stop

def EngineEvent.command : EngineEvent → Option EngineCommand
  | .took cmd => some cmd
  | _         => none

def EngineEvent.update : EngineEvent → Option ConfigUpdateResult
  | .updated result => some result
  | _               => none

def EngineInput.command : EngineInput → Option EngineCommand
  | .tryRecv cmd => cmd
  | .recv cmd    => some cmd
  | _            => none

namespace EngineState

variable {setup : EngineSetup} {s s' : EngineState} {input : EngineInput} {cmd : EngineCommand}
  {events : List EngineEvent}

def commands (s : EngineState) : List EngineCommand :=
  s.log.filterMap (·.command)

def updates (s : EngineState) : List ConfigUpdateResult :=
  s.log.filterMap (·.update)

-- The reply of an engine to a command.
def replies (setup : EngineSetup) (s : EngineState) : EngineCommand → List ConfigUpdateResult
  | .updateConfig patch => [(applyConfigPatch setup.render s.config setup.strategyParams patch (s.round + 1)).2]
  | _                   => []

-- The log tells which commands an engine takes and how it replies to them.
structure Handles (setup : EngineSetup) (s : EngineState) (cmd : Option EngineCommand) (s' : EngineState) : Prop where
  taken   : s'.commands = s.commands ++ cmd.toList
  replied : s'.updates = s.updates ++ cmd.toList.flatMap (s.replies setup)

theorem Handles.quiet (hl : s'.log = s.log ++ events) (hq : ∀ e ∈ events, e.command = none ∧ e.update = none) :
    Handles setup s none s' where
  taken := by
    rw [commands, hl, List.filterMap_append, List.filterMap_eq_nil_iff.mpr fun e he => (hq e he).1]
    rfl
  replied := by
    rw [updates, hl, List.filterMap_append, List.filterMap_eq_nil_iff.mpr fun e he => (hq e he).2]
    rfl

theorem Handles.still (hl : s'.log = s.log) : Handles setup s none s' :=
  .quiet (hl.trans (List.append_nil _).symm) nofun

theorem Handles.startRound {cmd : Option EngineCommand} (h : Handles setup s cmd s') : Handles setup s cmd (s'.startRound setup) := by
  constructor
  case taken   => rw [← h.taken, commands, startRound_effect.1, List.filterMap_append]; exact List.append_nil _
  case replied => rw [← h.replied, updates, startRound_effect.1, List.filterMap_append]; exact List.append_nil _

theorem Handles.leaveDrain : Handles setup s none (s.leaveDrain setup) := by
  rw [EngineState.leaveDrain]
  split
  case h_1 | h_2 => exact .still rfl
  case h_3       => exact .startRound <| .still rfl

theorem Handles.took (cmd : EngineCommand) : Handles setup s cmd (s.record [.took cmd] |>.handle setup cmd) := by
  cases cmd
  case updateConfig patch =>
    constructor
    case taken   => simp [commands, handle, record, EngineEvent.command]
    case replied => simp [updates, handle, record, replies, EngineEvent.update]
  all_goals constructor
  all_goals simp [commands, updates, handle, record, replies, EngineEvent.command, EngineEvent.update]

theorem handles_step (e : s.step setup input = some s') : Handles setup s input.command s' := by
  simp only [step] at e
  split at e
  case h_1 signalled hs =>
    split at e
    case isTrue =>
      cases e
      exact .still rfl
    case isFalse =>
      split at e <;> cases e
      case isTrue  => exact .still rfl
      case isFalse => exact .leaveDrain
  case h_2 cmd hs =>
    cases e
    exact .took cmd
  case h_3 hs =>
    cases e
    exact .leaveDrain
  case h_4 cmd hs =>
    have h := @Handles.took setup s cmd
    split at e <;> cases e
    case h_1 => exact h.startRound
    case h_2 => exact { h with }
    case h_3 => exact h
  case h_5 signalled hs => split at e <;> cases e <;> exact .still rfl
  case h_6 => cases e; exact .still rfl
  case h_7 => split at e <;> cases e <;> exact .still rfl
  case h_8 outcome hs =>
    split at e <;> cases e
    case h_1 => exact .quiet log_startSubmit <| by simp [EngineEvent.command, EngineEvent.update]
    case h_2 => exact .still rfl
  case h_9 discovery rest ok hs =>
    cases e
    have hl : (s.finishSubmit discovery rest ok).log = s.log ++ [.submitted discovery.cid ok] := by
      rw [finishSubmit]
      split <;> exact log_submitNext ..
    exact .quiet hl <| by simp [EngineEvent.command, EngineEvent.update]
  case h_10 known server dashSent hs =>
    obtain ⟨t, ht, hs'⟩ := Option.map_eq_some_iff.mp e
    obtain ⟨_, _, _, _, _, _, ht⟩ := trimCids_spec ht
    subst ht hs'
    exact .still rfl
  case h_11 => cases e; exact .still rfl
  case h_12 => cases e

end EngineState

theorem ApiCommand.action_eq_none {cmd : ApiCommand} (h : cmd.action = none) : ∃ patch, cmd = .updateConfig patch := by
  cases cmd
  case updateConfig patch => exact ⟨patch, rfl⟩
  all_goals nomatch h

namespace Api

open Machine

section Effects

variable (setup : EngineSetup)

-- What the steps of a worker can do.
inductive Effect (api : Api) : ApiInput → Api → Prop
  | request (h : api.tasks i = none) : Effect api (.request i cmd) (api.setTask i <| .sending cmd)
  | refuse (h : api.tasks i = some (.sending cmd)) (hc : ¬api.commands.isOpen) :
    Effect api (.send i) (api.respond i .notRunning)
  | accept (h : api.tasks i = some (.sending cmd)) (ha : cmd.action = some action)
      (hs : api.commands.trySend (i, cmd) = some c) :
    Effect api (.send i) ({ api with commands := c }.respond i <| .ok action)
  | await (h : api.tasks i = some (.sending <| .updateConfig patch))
      (hs : api.commands.trySend (i, .updateConfig patch) = some c) :
    Effect api (.send i) ({ api with commands := c }.setTask i <| .waiting .pending)
  | updated (h : api.tasks i = some (.waiting <| .sent result)) :
    Effect api (.reply i) (api.respond i <| .updated result)
  | dropped (h : api.tasks i = some (.waiting .dropped)) : Effect api (.reply i) (api.respond i .noResponse)
  | hangUp : Effect api (.hangUp i) (api.setTask i .returned)
  | engine (ha : api.admits input) (e : api.engine.step setup input = some s) :
    Effect api (.engine input) { api with engine := s }
  | command (hr : api.commands.tryRecv = some ((i, cmd), c)) (hc : api.receives cmd = some input)
      (e : api.engine.step setup input = some s) (ha : cmd.action = some action) :
    Effect api .command { api with engine := s, commands := c }
  | update (hr : api.commands.tryRecv = some ((i, .updateConfig patch), c))
      (hc : api.receives (.updateConfig patch) = some input) (e : api.engine.step setup input = some s)
      (hu : api.engine.replies setup (.updateConfig patch) = [result]) :
    Effect api .command ({ api with engine := s, commands := c }.sendUpdate i result)
  | exit (hs : api.engine.stage = .stopped) : Effect api .exit api.exit

variable {setup} {api api' : Api} {input : ApiInput}

theorem step_effect (e : api.step setup input = some api') : Effect setup api input api' := by
  cases input <;> simp only [step] at e
  case request id cmd =>
    split at e
    case h_1 h =>
      cases e
      exact .request h
    case h_2 => nomatch e
  case send id =>
    split at e
    case h_2 => nomatch e
    case h_1 cmd h =>
      unfold send at e
      split at e
      case isFalse hc =>
        cases e
        exact .refuse h hc
      case isTrue hc =>
        have ⟨c, hs, e⟩ := Option.map_eq_some_iff.mp e
        subst e
        split
        case h_1 action ha => exact .accept h ha hs
        case h_2 ha =>
          have ⟨patch, hp⟩ := ApiCommand.action_eq_none ha
          subst hp
          exact .await h hs
  case reply id =>
    split at e
    case h_1 result h =>
      cases e
      exact .updated h
    case h_2 h =>
      cases e
      exact .dropped h
    case h_3 => nomatch e
  case hangUp id =>
    have ⟨_, _, e⟩ := Option.map_eq_some_iff.mp e
    subst e
    exact .hangUp
  case engine input =>
    have ⟨ha, e⟩ := Option.ite_none_right_eq_some.mp e
    have ⟨_, he, h⟩ := Option.map_eq_some_iff.mp e
    subst h
    exact .engine ha he
  case command =>
    simp only [command, Option.bind_eq_bind, Option.bind_eq_some_iff, Option.pure_def] at e
    obtain ⟨⟨⟨id, cmd⟩, c⟩, hr, input, hc, s, e, h⟩ := e
    cases cmd <;> cases h
    case updateConfig => exact .update hr hc e rfl
    all_goals exact .command hr hc e rfl
  case exit =>
    split at e
    case h_1 hs =>
      cases e
      exact .exit hs
    case h_2 => nomatch e

theorem command_of_receives {cmd : ApiCommand} {input : EngineInput} (h : api.receives cmd = some input) :
    input.command = some cmd.engineCommand := by
  unfold receives at h
  split at h <;> cases h <;> rfl

theorem command_of_admits {input : EngineInput} (h : api.admits input) : input.command = none := by
  unfold admits at h
  split at h
  case h_1    => rfl
  case h_2    => cases h
  case h_3    => cases h
  case h_4 h₁ h₂ h₃ =>
    cases input
    case tryRecv cmd =>
      cases cmd
      case none     => rfl
      case some cmd => exact absurd rfl (h₂ cmd)
    case recv cmd => exact absurd rfl (h₃ cmd)
    all_goals rfl

end Effects

section Invariant

-- The numbers of the requests whose commands have been sent, and of those that have a response.
def senders (api : Api) : List Nat :=
  api.commands.sent.map (·.1)

def responded (api : Api) : List Nat :=
  api.responses.map (·.1)

-- What stands behind a response.
inductive Backs (api : Api) (i : Nat) : ApiResponse → Prop
  | ok (h : (i, cmd) ∈ api.commands.sent) (ha : cmd.action = some action) : Backs api i (.ok action)
  | updated (h : (i, result) ∈ api.updates) : Backs api i (.updated result)
  | notRunning (h : i ∉ api.senders) (hc : ¬api.commands.isOpen) : Backs api i .notRunning
  | noResponse (h : (i, .updateConfig patch) ∈ api.commands.lost) : Backs api i .noResponse

-- What stands behind the point at which a task is.
def Waits (api : Api) (i : Nat) : Option ApiTask → Prop
  | none | some (.sending _)         => i ∉ api.senders ∧ i ∉ api.responded
  | some (.waiting .pending)         => i ∉ api.responded ∧ ∃ patch, (i, .updateConfig patch) ∈ api.commands.queue
  | some (.waiting <| .sent result)  => i ∉ api.responded ∧ (i, result) ∈ api.updates
  | some (.waiting .dropped)         => i ∉ api.responded ∧ ∃ patch, (i, .updateConfig patch) ∈ api.commands.lost
  | some .returned                   => True

structure Consistent (api : Api) : Prop where
  commands  : api.engine.commands = api.commands.received.map (·.2.engineCommand)
  updates   : api.engine.updates = api.updates.map (·.2)
  replies   : api.updates.map (·.1) = (api.commands.received.filter (·.2.action.isNone)).map (·.1)
  senders   : api.senders.Nodup
  responded : api.responded.Nodup
  waits     : ∀ i, api.Waits i (api.tasks i)
  backs     : ∀ r ∈ api.responses, api.Backs r.1 r.2

variable {setup : EngineSetup} {api api' : Api} {input : ApiInput} {i : Nat} {task : Option ApiTask}
  {response : ApiResponse}

-- What a step keeps of the requests other than its own.
structure Keeps (api api' : Api) (i : Nat) : Prop where
  senders   : i ∈ api'.senders → i ∈ api.senders
  responded : i ∈ api'.responded → i ∈ api.responded
  updates   : ∀ result, (i, result) ∈ api.updates → (i, result) ∈ api'.updates
  lost      : ∀ cmd, (i, cmd) ∈ api.commands.lost → (i, cmd) ∈ api'.commands.lost

theorem Waits.keep (h : api.Waits i task) (hk : Keeps api api' i)
    (hq : ∀ patch, (i, .updateConfig patch) ∈ api.commands.queue → (i, .updateConfig patch) ∈ api'.commands.queue) :
    api'.Waits i task := by
  unfold Waits at h ⊢
  split at h
  case h_1 | h_2 => exact h.imp (mt hk.senders) (mt hk.responded)
  case h_3 => exact h.imp (mt hk.responded) <| .imp hq
  case h_4 => exact h.imp (mt hk.responded) <| hk.updates _
  case h_5 => exact h.imp (mt hk.responded) <| .imp fun _ => hk.lost _
  case h_6 => trivial

-- A reply reaches the task that waits for it.
theorem Waits.settle {reply : ApiReply} (h : api.Waits i task) (hk : Keeps api api' i)
    (hr : ∀ patch, (i, .updateConfig patch) ∈ api.commands.queue → i ∉ api'.responded →
      api'.Waits i (some <| .waiting reply)) : api'.Waits i (task.map <| Api.settle reply) := by
  unfold Waits at h
  split at h
  case h_1 | h_2 => exact h.imp (mt hk.senders) (mt hk.responded)
  case h_3 =>
    have ⟨hn, patch, hq⟩ := h
    exact hr patch hq <| mt hk.responded hn
  case h_4 => exact h.imp (mt hk.responded) <| hk.updates _
  case h_5 => exact h.imp (mt hk.responded) <| .imp fun _ => hk.lost _
  case h_6 => trivial

-- What backs a response is not lost.
structure Grows (api api' : Api) : Prop where
  sent    : ∀ c ∈ api.commands.sent, c ∈ api'.commands.sent
  updates : ∀ u ∈ api.updates, u ∈ api'.updates
  closed  : ¬api.commands.isOpen → ¬api'.commands.isOpen ∧ api'.senders = api.senders
  lost    : ∀ c ∈ api.commands.lost, c ∈ api'.commands.lost

theorem Backs.grow (h : api.Backs i response) (hg : Grows api api') : api'.Backs i response := by
  cases h
  case ok h ha         => exact .ok (hg.sent _ h) ha
  case updated h       => exact .updated <| hg.updates _ h
  case notRunning h hc =>
    have ⟨hc, hs⟩ := hg.closed hc
    exact .notRunning (hs ▸ h) hc
  case noResponse h    => exact .noResponse <| hg.lost _ h

theorem waits_update {task : ApiTask} (ht : api'.tasks = Function.update api.tasks i task)
    (h : ∀ j, api.Waits j (api.tasks j)) (hk : ∀ j, j ≠ i → Keeps api api' j)
    (hq : ∀ c ∈ api.commands.queue, c ∈ api'.commands.queue) (hw : api'.Waits i task) (j : Nat) :
    api'.Waits j (api'.tasks j) := by
  rw [ht]
  by_cases hj : j = i
  case pos =>
    subst hj
    rw [Function.update_self]
    exact hw
  case neg =>
    rw [Function.update_of_ne hj]
    exact (h j).keep (hk j hj) fun _ => hq _

theorem Consistent.setTask {task : ApiTask} (h : api.Consistent) (hw : api.Waits i task) :
    (api.setTask i task).Consistent :=
  { h with
    waits := waits_update rfl h.waits (fun _ _ => ⟨(·), (·), fun _ => (·), fun _ => (·)⟩) (fun _ => (·)) hw
    backs := fun r hr => (h.backs r hr).grow ⟨fun _ => (·), fun _ => (·), (⟨·, rfl⟩), fun _ => (·)⟩ }

theorem Consistent.respond (h : api.Consistent) (hn : i ∉ api.responded) (hb : api.Backs i response) :
    (api.respond i response).Consistent := by
  have hr : (api.respond i response).responded = api.responded ++ [i] := List.map_append
  have hg : Grows api (api.respond i response) := ⟨fun _ => (·), fun _ => (·), (⟨·, rfl⟩), fun _ => (·)⟩
  constructor
  case commands  => exact h.commands
  case updates   => exact h.updates
  case replies   => exact h.replies
  case senders   => exact h.senders
  case responded =>
    rw [hr]
    exact List.nodup_append_comm.mp <| List.nodup_cons.mpr ⟨hn, h.responded⟩
  case waits =>
    refine @waits_update api _ i _ rfl h.waits (fun j hj => ⟨(·), fun hm => ?_, fun _ => (·), fun _ => (·)⟩) (fun _ => (·)) trivial
    rw [hr] at hm
    exact (List.mem_append.mp hm).elim id fun hm => absurd (List.mem_singleton.mp hm) hj
  case backs =>
    intro r hr
    rcases List.mem_append.mp hr with hr | hr
    case inl => exact (h.backs r hr).grow hg
    case inr =>
      cases List.mem_singleton.mp hr
      exact hb.grow hg

-- The command of a task is sent.
theorem Consistent.sent (h : api.Consistent) (task : ApiTask) (ht : api.tasks i = some (.sending cmd))
    (hs : api.commands.trySend (i, cmd) = some c) (hw : { api with commands := c : Api }.Waits i task) :
    ({ api with commands := c }.setTask i task).Consistent := by
  have ⟨ho, _, hs, hr, hq, hl, ho'⟩ := BoundedChannel.trySend_eq_some hs
  have hi : i ∉ api.senders := by
    have hw := h.waits i
    rw [ht] at hw
    exact hw.1
  have hs' : ({ api with commands := c : Api }.setTask i task).senders = api.senders ++ [i] := by
    rw [Api.senders, Api.setTask, hs, List.map_append]
    rfl
  constructor
  case commands  => exact h.commands.trans <| by rw [Api.setTask, hr]
  case updates   => exact h.updates
  case replies   => exact h.replies.trans <| by rw [Api.setTask, hr]
  case responded => exact h.responded
  case senders   =>
    rw [hs']
    exact List.nodup_append_comm.mp <| List.nodup_cons.mpr ⟨hi, h.senders⟩
  case waits =>
    refine @waits_update api _ i _ rfl h.waits (fun j hj => ⟨fun hm => ?_, (·), fun _ => (·), fun _ hm => ?_⟩)
      (fun _ hm => ?_) hw
    · rw [hs'] at hm
      exact (List.mem_append.mp hm).elim id fun hm => absurd (List.mem_singleton.mp hm) hj
    · rw [Api.setTask, hl]
      exact hm
    · rw [Api.setTask, hq]
      exact List.mem_append_left _ hm
  case backs =>
    refine fun r hr => (h.backs r hr).grow ⟨fun _ hm => ?_, fun _ => (·), fun hc => absurd ho hc, fun _ hm => ?_⟩
    · rw [Api.setTask, hs]
      exact List.mem_append_left _ hm
    · rw [Api.setTask, hl]
      exact hm

theorem Consistent.engine {s : EngineState} (h : api.Consistent)
    (hh : EngineState.Handles setup api.engine none s) : { api with engine := s : Api }.Consistent :=
  { h with
    commands := hh.taken.trans <| (List.append_nil _).trans h.commands
    updates  := hh.replied.trans <| (List.append_nil _).trans h.updates
    waits    := fun i => (h.waits i).keep ⟨(·), (·), fun _ => (·), fun _ => (·)⟩ fun _ => (·)
    backs    := fun r hr => (h.backs r hr).grow ⟨fun _ => (·), fun _ => (·), (⟨·, rfl⟩), fun _ => (·)⟩ }

theorem Consistent.command {s : EngineState} (h : api.Consistent) (hr : api.commands.tryRecv = some ((i, cmd), c))
    (hh : EngineState.Handles setup api.engine cmd.engineCommand s) (ha : cmd.action = some action) :
    { api with engine := s, commands := c : Api }.Consistent := by
  have ⟨hq, hs, hr, hl, ho⟩ := BoundedChannel.tryRecv_eq_some hr
  have hs' : { api with engine := s, commands := c : Api }.senders = api.senders := by rw [Api.senders, hs]; rfl
  constructor
  case commands =>
    rw [hh.taken, h.commands, hr, List.map_append]
    rfl
  case updates =>
    rw [hh.replied, h.updates]
    cases cmd
    case updateConfig => nomatch ha
    all_goals exact List.append_nil _
  case replies =>
    rw [hr, List.filter_append, List.filter_singleton, ha]
    exact h.replies.trans <| by simp
  case senders   => rw [hs']; exact h.senders
  case responded => exact h.responded
  case waits     =>
    refine fun j => (h.waits j).keep ⟨fun hm => hs' ▸ hm, (·), fun _ => (·), fun _ hm => hl ▸ hm⟩ fun _ hm => ?_
    rw [hq] at hm
    rcases List.mem_cons.mp hm with e | hm
    case inr => exact hm
    case inl =>
      cases e
      nomatch ha
  case backs =>
    refine fun r hr => (h.backs r hr).grow ⟨fun _ hm => hs ▸ hm, fun _ => (·), fun hc => ⟨?_, hs'⟩, fun _ hm => hl ▸ hm⟩
    rw [ho]
    exact hc

theorem tasks_sendUpdate (i j : Nat) (result : ConfigUpdateResult) : (api.sendUpdate i result).tasks j =
    if j = i then (api.tasks i).map <| settle <| .sent result else api.tasks j :=
  Function.update_apply ..

theorem respond_setTask (api : Api) (i : Nat) (task : ApiTask) (response : ApiResponse) :
    (api.setTask i task).respond i response = api.respond i response := by
  rw [Api.respond, Api.respond, Api.setTask, Api.setTask, Function.update_idem]
  rfl

theorem Consistent.update {s : EngineState} (h : api.Consistent)
    (hr : api.commands.tryRecv = some ((i, .updateConfig patch), c))
    (hh : EngineState.Handles setup api.engine (EngineCommand.updateConfig patch) s)
    (hu : api.engine.replies setup (.updateConfig patch) = [result]) :
    ({ api with engine := s, commands := c }.sendUpdate i result).Consistent := by
  have ⟨hq, hs, hr, hl, ho⟩ := BoundedChannel.tryRecv_eq_some hr
  have hs' : ({ api with engine := s, commands := c : Api }.sendUpdate i result).senders = api.senders := by
    rw [Api.senders, sendUpdate, hs]
    rfl
  have hk (j : Nat) : Keeps api ({ api with engine := s, commands := c }.sendUpdate i result) j :=
    ⟨fun hm => hs' ▸ hm, (·), fun _ hm => List.mem_append_left _ hm, fun _ hm => hl ▸ hm⟩
  constructor
  case commands =>
    rw [sendUpdate, hh.taken, h.commands, hr, List.map_append]
    rfl
  case updates =>
    rw [sendUpdate, hh.replied, h.updates, Option.toList_some, List.flatMap_singleton, hu, List.map_append]
    rfl
  case replies =>
    rw [sendUpdate, hr, List.filter_append, List.map_append, List.map_append, h.replies]
    rfl
  case senders   => rw [hs']; exact h.senders
  case responded => exact h.responded
  case waits     =>
    intro j
    rw [tasks_sendUpdate]
    split
    case isTrue hj =>
      subst hj
      exact (h.waits j).settle (hk j) fun _ _ hn => ⟨hn, List.mem_append_right _ <| List.mem_singleton_self _⟩
    case isFalse hj =>
      refine (h.waits j).keep (hk j) fun _ hm => ?_
      rw [hq] at hm
      exact (List.mem_cons.mp hm).elim (fun e => absurd (Prod.mk.inj e).1 hj) id
  case backs =>
    refine fun r hr => (h.backs r hr).grow
      ⟨fun _ hm => hs ▸ hm, fun _ hm => List.mem_append_left _ hm, fun hc => ⟨?_, hs'⟩, fun _ hm => hl ▸ hm⟩
    rw [sendUpdate, ho]
    exact hc

theorem Consistent.exit (h : api.Consistent) : api.exit.Consistent := by
  have hl (c : Nat × ApiCommand) (hm : c ∈ api.commands.lost) : c ∈ api.exit.commands.lost := List.mem_append_right _ hm
  have hk (j : Nat) : Keeps api api.exit j := ⟨(·), (·), fun _ => (·), fun _ => hl _⟩
  refine { h with waits := fun j => ?_, backs := fun r hr => ?_ }
  case refine_1 =>
    change api.exit.Waits j (if j ∈ api.commands.queue.map (·.1) then _ else _)
    split
    case isTrue =>
      exact (h.waits j).settle (hk j) fun patch hq hn => ⟨hn, patch, List.mem_append_left _ hq⟩
    case isFalse hn =>
      exact (h.waits j).keep (hk j) fun _ hq => absurd (List.mem_map_of_mem hq) hn
  case refine_2 => exact (h.backs r hr).grow ⟨fun _ => (·), fun _ => (·), fun _ => ⟨nofun, rfl⟩, hl⟩

theorem consistent_step (h : api.Consistent) (e : api.step setup input = some api') : api'.Consistent := by
  cases step_effect e
  case request i cmd ht =>
    have hw := h.waits i
    rw [ht] at hw
    exact h.setTask hw
  case refuse i cmd ht hc =>
    have hw := h.waits i
    rw [ht] at hw
    exact h.respond hw.2 <| .notRunning hw.1 hc
  case accept i cmd action c ht ha hs =>
    have hw := h.waits i
    rw [ht] at hw
    have ⟨_, _, hc, _⟩ := BoundedChannel.trySend_eq_some hs
    have hb : ({ api with commands := c }.setTask i .returned).Backs i (.ok action) :=
      .ok (by rw [Api.setTask, hc]; exact List.mem_append_right _ <| List.mem_singleton_self _) ha
    have h := (h.sent .returned ht hs trivial).respond hw.2 hb
    rwa [respond_setTask] at h
  case await i patch c ht hs =>
    have hw := h.waits i
    rw [ht] at hw
    have ⟨_, _, _, _, hq, _, _⟩ := BoundedChannel.trySend_eq_some hs
    exact h.sent _ ht hs ⟨hw.2, patch, by rw [hq]; exact List.mem_append_right _ <| List.mem_singleton_self _⟩
  case updated i result ht =>
    have hw := h.waits i
    rw [ht] at hw
    exact h.respond hw.1 <| .updated hw.2
  case dropped i ht =>
    have hw := h.waits i
    rw [ht] at hw
    have ⟨hn, patch, hl⟩ := hw
    exact h.respond hn <| .noResponse hl
  case hangUp => exact h.setTask trivial
  case engine ha he =>
    have hh := EngineState.handles_step he
    rw [command_of_admits ha] at hh
    exact h.engine hh
  case command hr hc he ha =>
    have hh := EngineState.handles_step he
    rw [command_of_receives hc] at hh
    exact h.command hr hh ha
  case update hr hc he hu =>
    have hh := EngineState.handles_step he
    rw [command_of_receives hc] at hh
    exact h.update hr hh hu
  case exit => exact h.exit

theorem Consistent.init (config : EngineConfig) : (Api.init config).Consistent where
  commands  := rfl
  updates   := rfl
  replies   := rfl
  senders   := List.nodup_nil
  responded := List.nodup_nil
  waits _   := ⟨nofun, nofun⟩
  backs     := nofun

end Invariant

variable {setup : EngineSetup} {api : Api}

theorem engine_step {input : ApiInput} {api' : Api} (e : api.step setup input = some api') :
    api'.engine = api.engine ∨ ∃ j, api.engine.step setup j = some api'.engine := by
  cases step_effect e
  case engine he         => exact .inr ⟨_, he⟩
  case command hr hc he _ => exact .inr ⟨_, he⟩
  case update hr hc he _  => exact .inr ⟨_, he⟩
  all_goals exact .inl rfl

-- The interface takes nothing from the engine and adds nothing to it but commands: the engine handles the commands that
-- have been sent, each once and in their order, and it replies to each update that it handles. Every request has at
-- most one response, and a response tells what has become of the command of the request.
theorem commands_answered (setup : EngineSetup) (config : EngineConfig)
    (r : Run (step setup) (fun _ _ => True) (init config) api) :
    Run (EngineState.step setup) (fun _ _ => True) (.init config) api.engine ∧
    (api.commands.sent.map (·.1)).Nodup ∧
    api.engine.commands = api.commands.received.map (·.2.engineCommand) ∧
    api.engine.updates = api.updates.map (·.2) ∧
    api.updates.map (·.1) = (api.commands.received.filter (·.2.action.isNone)).map (·.1) ∧
    (api.responses.map (·.1)).Nodup ∧ ∀ r ∈ api.responses, api.Backs r.1 r.2 := by
  have h := r.invariant Consistent (fun h _ => consistent_step h) <| .init config
  exact ⟨r.simulate (·.engine) engine_step, h.senders, h.commands, h.updates, h.replies, h.responded, h.backs⟩

-- Four requests: an update and a stop that the engine handles, an update that it leaves behind, and one that comes late.
def fourRequests : List ApiInput :=
  [.request 0 <| .updateConfig [("noise_flips", .posInt 7)], .request 1 .stop, .send 0, .send 1,
   .engine <| .shutdown false, .command, .command, .engine <| .tryRecv none,
   .request 2 <| .updateConfig [], .send 2, .exit, .reply 0, .reply 2, .request 3 .pause, .send 3]

theorem four_commands_answered :
    ∃ api ∈ execute (step <| ReferenceEngine.engine true) (init <| ReferenceEngine.options true 10000) fourRequests,
      api.responses.map (fun r => (r.1, r.2.status)) = [(1, 200), (0, 200), (2, 504), (3, 503)] ∧
      api.engine.config.noiseFlips = 7 ∧
      api.engine.commands = api.commands.received.map (·.2.engineCommand) ∧
      ∀ r ∈ api.responses, api.Backs r.1 r.2 := by
  have ⟨api, e, hr, hf⟩ : ∃ api ∈ execute (step <| ReferenceEngine.engine true) (init <| ReferenceEngine.options true 10000) fourRequests,
      api.responses.map (fun r => (r.1, r.2.status)) = [(1, 200), (0, 200), (2, 504), (3, 503)] ∧
      api.engine.config.noiseFlips = 7 := by decide +kernel
  have ⟨_, _, hc, _, _, _, hb⟩ := commands_answered (ReferenceEngine.engine true) (ReferenceEngine.options true 10000) (run_of_execute e)
  exact ⟨api, e, hr, hf, hc, hb⟩

-- Once the engine has returned, the next step of any task ends it.
theorem nobody_hangs (setup : EngineSetup) (config : EngineConfig)
    (r : Run (step setup) (fun _ _ => True) (init config) api) (hc : ¬api.commands.isOpen) {id : Nat} {task : ApiTask}
    (ht : api.tasks id = some task) (hr : task ≠ .returned) :
    ∃ response, ∃ input ∈ [ApiInput.send id, .reply id], api.step setup input = some (api.respond id response) := by
  have h := r.invariant Consistent (fun h _ => consistent_step h) <| .init config
  have hw := h.waits id
  rw [ht] at hw
  cases task
  case returned => exact absurd rfl hr
  case sending cmd =>
    refine ⟨.notRunning, .send id, by simp, ?_⟩
    simp only [step, ht, send, if_neg hc]
  case waiting reply =>
    cases reply
    case sent result => exact ⟨.updated result, .reply id, by simp, by simp only [step, ht]⟩
    case dropped     => exact ⟨.noResponse, .reply id, by simp, by simp only [step, ht]⟩
    case pending     =>
      have ⟨_, patch, hq⟩ := hw
      rw [api.commands.closed hc] at hq
      nomatch hq

-- The engine has stopped before an update, and with its end of the channel the update is dropped.
def lateUpdate : List ApiInput :=
  [.request 0 <| .updateConfig [], .engine <| .shutdown true, .send 0, .exit]

theorem late_update_ends :
    ∃ api ∈ execute (step <| ReferenceEngine.engine true) (init <| ReferenceEngine.options true 10000) lateUpdate,
      ∃ response, ∃ input ∈ [ApiInput.send 0, .reply 0],
        api.step (ReferenceEngine.engine true) input = some (api.respond 0 response) := by
  have ⟨api, e, hc, ht⟩ : ∃ api ∈ execute (step <| ReferenceEngine.engine true) (init <| ReferenceEngine.options true 10000) lateUpdate,
      ¬api.commands.isOpen ∧ api.tasks 0 = some (.waiting .dropped) := ⟨_, rfl, nofun, rfl⟩
  exact ⟨api, e, nobody_hangs (ReferenceEngine.engine true) (ReferenceEngine.options true 10000) (run_of_execute e) hc ht nofun⟩

end Api
