import Extremal.Dashboard.Theorems.Server
import Extremal.Lib.ChangeLog

open ChangeLog

-- The change that an event reports to a page.
def UiEvent.change : UiEvent → Option (Change String)
  | workerConnected event       => some <| .add event.workerId
  | workerDisconnected workerId => some <| .remove workerId
  | workerEvent _ _             => none

-- The workers on a page after some events.
def shown (events : List UiEvent) : Finset String :=
  replay <| events.filterMap UiEvent.change

-- The change of the map that a task has made, but not yet reported.
def WorkerPhase.unreported : WorkerPhase → Option (Change String)
  | registered info   => some <| .add info.workerId
  | unregistered info => some <| .remove info.workerId
  | _                 => none

section Shown

variable {events : List UiEvent} {event : UiEvent} {change : Change String} {workerId : String}

theorem shown_concat_of_none (h : event.change = none) : shown (events ++ [event]) = shown events := by
  simp [shown, h]

theorem shown_concat (h : event.change = some change) :
    shown (events ++ [event]) = replay (events.filterMap UiEvent.change ++ [change]) := by
  simp [shown, h]

end Shown

namespace Relay

def unreported (relay : Relay) (i : Nat) : Option (Change String) :=
  relay.connections i |>.bind (·.phase.unreported)

def Unreported (relay : Relay) (workerId : String) : Prop :=
  ∃ i change, relay.unreported i = some change ∧ change.key = workerId

-- A step that keeps a client up to date: the last report about a worker agrees with the map, all changes
-- since the list of the workers was sent are still to be reported when the client subscribes, and the
-- receiver does not lag.
structure Timely (client : Nat) (relay : Relay) (input : Input) : Prop where
  inOrder  : ∀ i change next sent, input = .worker i → relay.unreported i = some change →
    relay.clients client = some ⟨.relaying next, sent⟩ →
    (change.isAdd ↔ change.key ∈ relay.state.workers) ∨
    ∃ j ≠ i, ∃ other, relay.unreported j = some other ∧ other.key = change.key
  complete : ∀ sent, input = .ui client → relay.clients client = some ⟨.listing [], sent⟩ →
    ∀ workerId, (workerId ∈ shown sent ↔ workerId ∈ relay.state.workers) ∨ relay.Unreported workerId
  inTime   : ∀ next sent, input = .ui client → relay.clients client = some ⟨.relaying next, sent⟩ →
    relay.state.uiTx.length ≤ next + UiClient.capacity

-- All events that a client has got or will get show the map, up to the changes that are still to be reported.
def InStep (client : Nat) (relay : Relay) : Prop :=
  ∀ next sent, relay.clients client = some ⟨.relaying next, sent⟩ →
    next ≤ relay.state.uiTx.length ∧
    ∀ workerId, (workerId ∈ shown (sent ++ (relay.state.uiTx.drop next).map (·.2)) ↔ workerId ∈ relay.state.workers) ∨
      relay.Unreported workerId

section

variable {crates : IdentityCrates} {parsers : Parsers} {relay relay' : Relay} {input : Input} {client i : Nat}
  {connection connection' : Connection} {state : DashboardState} {change : Change String} {event : UiEvent}

theorem unreported_of_connections (h : relay.connections i = some connection) :
    relay.unreported i = connection.phase.unreported := by
  rw [unreported, h]
  rfl

theorem unreported_setConnection : ({ relay with state }.setConnection i connection).unreported =
    Function.update relay.unreported i connection.phase.unreported :=
  bind_setConnection WorkerPhase.unreported

theorem unreported_relayMessage (info : WorkerInfo) (result : Recv) :
    (relayMessage parsers info result).1.unreported = none := by
  cases result <;> rfl

theorem change_relayMessage {info : WorkerInfo} {result : Recv} (h : (relayMessage parsers info result).2 = some event) :
    event.change = none := by
  cases result <;> simp only [relayMessage, Option.map_eq_some_iff, reduceCtorEq] at h
  case text =>
    obtain ⟨message, -, rfl⟩ := h
    rfl

theorem unreported_handleRegister (nonce : Vector UInt8 32) (now : Nat) (result : Option Recv) :
    (handleRegister crates parsers nonce now result).unreported = none := by
  rw [handleRegister]
  split <;> rfl

-- A task changes the map.
theorem InStep.changed (h : relay.InStep client) (hn : relay.unreported i = none)
    (hc : connection.phase.unreported = some change) (hl : state.uiTx = relay.state.uiTx)
    (hw : ∀ workerId, workerId ≠ change.key → (workerId ∈ state.workers ↔ workerId ∈ relay.state.workers)) :
    ({ relay with state }.setConnection i connection).InStep client := by
  intro next sent hr
  have ⟨hle, h⟩ := h next sent hr
  refine ⟨hle.trans_eq <| congrArg _ hl.symm, fun workerId => ?_⟩
  by_cases hk : workerId = change.key
  case pos =>
    refine .inr ⟨i, change, ?_, hk.symm⟩
    rw [unreported_setConnection, hc, Function.update_self]
  case neg =>
    refine (h workerId).imp (fun h => ?_) ?_
    · show workerId ∈ shown (sent ++ (state.uiTx.drop next).map (·.2)) ↔ workerId ∈ state.workers
      rw [hl, h, hw workerId hk]
    · intro ⟨j, other, hj, hk⟩
      have hji : j ≠ i := by
        rintro rfl
        cases hn.symm.trans hj
      refine ⟨j, other, ?_, hk⟩
      rwa [unreported_setConnection, Function.update_of_ne hji]

theorem append_drop_concat {log : List (Nat × UiEvent)} {next : Nat} (h : next ≤ log.length) (sent : List UiEvent) :
    sent ++ ((log ++ [(i, event)]).drop next).map (·.2) = (sent ++ (log.drop next).map (·.2)) ++ [event] := by
  simp [List.drop_append_of_le_length h]

-- A task reports the change that it has made.
theorem InStep.reported (h : relay.InStep client) (hx : relay.Timely client (.worker i))
    (hp : relay.unreported i = some change) (he : event.change = some change) :
    ({ relay with state := relay.state.send i event }.setConnection i connection).InStep client := by
  intro next sent hr
  have ⟨hle, h⟩ := h next sent hr
  have others {workerId j other} (hji : j ≠ i) (hj : relay.unreported j = some other) (hk : other.key = workerId) :
      ({ relay with state := relay.state.send i event }.setConnection i connection).Unreported workerId := by
    refine ⟨j, other, ?_, hk⟩
    rwa [unreported_setConnection, Function.update_of_ne hji]
  refine ⟨hle.trans <| by simp [setConnection, DashboardState.send], fun workerId => ?_⟩
  show (workerId ∈ shown (sent ++ ((relay.state.uiTx ++ [(i, event)]).drop next).map (·.2)) ↔
    workerId ∈ relay.state.workers) ∨ _
  rw [append_drop_concat hle, shown_concat he]
  by_cases hk : workerId = change.key
  case pos =>
    subst hk
    rw [key_mem_replay_concat]
    refine (hx.inOrder i change next sent rfl hp hr).imp_right ?_
    intro ⟨j, hji, other, hj, hk⟩
    exact others hji hj hk
  case neg =>
    rw [mem_replay_concat_of_ne hk]
    refine (h workerId).imp_right ?_
    intro ⟨j, other, hj, hj'⟩
    have hji : j ≠ i := by
      rintro rfl
      cases hp.symm.trans hj
      exact hk hj'.symm
    exact others hji hj hj'

-- A step of a task that does not concern the map.
theorem InStep.quiet (h : relay.InStep client) (hc : connection.phase.unreported = relay.unreported i)
    (hw : state.workers = relay.state.workers)
    (hl : state.uiTx = relay.state.uiTx ∨ ∃ event, event.change = none ∧ state.uiTx = relay.state.uiTx ++ [(i, event)]) :
    ({ relay with state }.setConnection i connection).InStep client := by
  intro next sent hr
  have ⟨hle, h⟩ := h next sent hr
  have hu : ({ relay with state }.setConnection i connection).unreported = relay.unreported := by
    rw [unreported_setConnection, hc, Function.update_eq_self]
  have hlog : next ≤ state.uiTx.length ∧ shown (sent ++ (state.uiTx.drop next).map (·.2)) =
      shown (sent ++ (relay.state.uiTx.drop next).map (·.2)) := by
    obtain hl | ⟨event, he, hl⟩ := hl
    case inl => exact ⟨hl ▸ hle, by rw [hl]⟩
    case inr =>
      rw [hl, append_drop_concat hle, shown_concat_of_none he]
      exact ⟨hle.trans <| by simp, rfl⟩
  refine ⟨hlog.1, fun workerId => ?_⟩
  show (workerId ∈ shown (sent ++ (state.uiTx.drop next).map (·.2)) ↔ workerId ∈ state.workers) ∨ _
  rw [hlog.2, hw]
  refine (h workerId).imp_right ?_
  rw [Unreported, Unreported, hu]
  exact id

theorem clients_setClient {u : Nat} {uiClient : UiClient} :
    (relay.setClient u uiClient).clients = Function.update relay.clients u (some uiClient) := rfl

-- A step of another client, or one after which the client is not subscribed.
theorem InStep.setClient {u : Nat} {uiClient : UiClient} (h : relay.InStep client)
    (hu : u ≠ client ∨ ∀ next, uiClient.phase ≠ .relaying next) : (relay.setClient u uiClient).InStep client := by
  intro next sent hr
  rw [clients_setClient] at hr
  by_cases huc : client = u
  case pos =>
    subst huc
    rw [Function.update_self, Option.some.injEq] at hr
    exact absurd (hr ▸ rfl) <| hu.resolve_left (not_not.mpr rfl) next
  case neg =>
    rw [Function.update_of_ne huc] at hr
    exact h next sent hr

theorem InStep.ui {uiClient uiClient' : UiClient} (h : relay.InStep client) (hx : relay.Timely client (.ui client))
    (hc : relay.clients client = some uiClient) (hp : uiClient.proceed relay.state = some uiClient') :
    (relay.setClient client uiClient').InStep client := by
  obtain ⟨phase, sent⟩ := uiClient
  cases phase <;> simp only [UiClient.proceed] at hp
  case opened =>
    cases hp
    exact h.setClient <| .inr <| by simp
  case listing pending =>
    cases pending
    case cons =>
      cases hp
      exact h.setClient <| .inr <| by simp
    case nil =>
      cases hp
      intro next sent' hr
      rw [clients_setClient, Function.update_self] at hr
      cases hr
      refine ⟨le_rfl, ?_⟩
      show ∀ workerId, (workerId ∈ shown (sent ++ (relay.state.uiTx.drop relay.state.uiTx.length).map (·.2)) ↔
        workerId ∈ relay.state.workers) ∨ relay.Unreported workerId
      simpa using hx.complete sent rfl hc
  case relaying next =>
    rw [if_neg <| not_lt.mpr <| hx.inTime next sent rfl hc, Option.map_eq_some_iff] at hp
    obtain ⟨event, he, rfl⟩ := hp
    intro next' sent' hr
    rw [clients_setClient, Function.update_self] at hr
    cases hr
    have ⟨hlt, he⟩ := List.getElem?_eq_some_iff.mp he
    have ⟨_, h⟩ := h next sent hc
    rw [List.drop_eq_getElem_cons hlt, he] at h
    refine ⟨hlt, ?_⟩
    show ∀ workerId, (workerId ∈ shown (sent ++ [event.2] ++ (relay.state.uiTx.drop (next + 1)).map (·.2)) ↔
      workerId ∈ relay.state.workers) ∨ relay.Unreported workerId
    simpa using h
  case returned => cases hp

theorem InStep.step (h : relay.InStep client) (hx : relay.Timely client input)
    (e : relay.step crates parsers input = some relay') : relay'.InStep client := by
  cases step_effect e
  case connect hc =>
    refine h.quiet ?_ rfl <| .inl rfl
    rw [unreported, hc]
    rfl
  case answer hc =>
    refine h.quiet ?_ rfl <| .inl rfl
    rw [unreported_of_connections hc, unreported_handleRegister]
    rfl
  case relay info now result hc =>
    refine h.quiet ?_ ?_ ?_
    · rw [unreported_of_connections hc]
      exact unreported_relayMessage ..
    all_goals cases he : (relayMessage parsers info result).2
    · rfl
    · rfl
    · exact .inl rfl
    · exact .inr ⟨_, change_relayMessage he, rfl⟩
  case reject hc => exact h.quiet (unreported_of_connections hc).symm rfl <| .inl rfl
  case register info hc ha hl =>
    refine h.changed (unreported_of_connections hc) rfl rfl fun workerId hk => ?_
    rw [AList.mem_insert]
    exact or_iff_right hk
  case announce hc => exact h.reported hx (unreported_of_connections hc) rfl
  case unregister info hc =>
    refine h.changed (unreported_of_connections hc) rfl rfl fun workerId hk => ?_
    exact AList.mem_erase.trans <| and_iff_right hk
  case dismiss hc => exact h.reported hx (unreported_of_connections hc) rfl
  case wsUi u hc => exact h.setClient <| .inr <| by simp
  case ui u uiClient uiClient' hc hp =>
    by_cases hu : u = client
    case pos =>
      subst hu
      exact h.ui hx hc hp
    case neg => exact h.setClient <| .inl hu
  case hangUp hc => exact h.setClient <| .inr <| by simp

theorem timely_of_clients (h : ∀ uiClient, relay.clients client = some uiClient →
    uiClient.phase ≠ .listing [] ∧ ∀ next, uiClient.phase ≠ .relaying next) : relay.Timely client input where
  inOrder _ _ next _ _ _ hc := absurd rfl <| (h _ hc).2 next
  complete _ _ hc           := absurd rfl (h _ hc).1
  inTime next _ _ hc        := absurd rfl <| (h _ hc).2 next

theorem step_ui {next : Nat} {sent : List UiEvent} {sender : Nat}
    (hc : relay.clients client = some ⟨.relaying next, sent⟩) (hl : relay.state.uiTx.length ≤ next + UiClient.capacity)
    (he : relay.state.uiTx[next]? = some (sender, event)) :
    relay.step crates parsers (.ui client) = some (relay.setClient client ⟨.relaying (next + 1), sent ++ [event]⟩) := by
  simp [step, hc, UiClient.proceed, not_lt.mpr hl, he]

theorem timely_of_phase {uiClient : UiClient} (h : relay.clients client = some uiClient)
    (hl : uiClient.phase ≠ .listing []) (hr : ∀ next, uiClient.phase ≠ .relaying next) : relay.Timely client input :=
  timely_of_clients fun _ hc => by
    cases h.symm.trans hc
    exact ⟨hl, hr⟩

-- In runs whose steps keep a client up to date, the client has shown the workers in the map when nothing is
-- left to be reported or to be sent.
theorem page_shows_workers {maxWorkers : Nat} {allowedKeys : List String} {sent : List UiEvent}
    (run : Machine.Run (Relay.step crates parsers) (Timely client) (new maxWorkers allowedKeys) relay)
    (hc : relay.clients client = some ⟨.relaying relay.state.uiTx.length, sent⟩)
    (hr : ∀ workerId, ¬relay.Unreported workerId) :
    shown sent = relay.state.workers.keys.toFinset := by
  have h : relay.InStep client :=
    run.invariant (InStep client) (fun h hx e => h.step hx e) <| by
      intro next sent hc
      cases hc
  have ⟨_, h⟩ := h _ sent hc
  rw [List.drop_length, List.map_nil, List.append_nil] at h
  ext workerId
  rw [(h workerId).resolve_right <| hr workerId, List.mem_toFinset]
  exact AList.mem_keys

end

namespace NamedId

-- One worker is in the list. Another one has registered when the client subscribes, and announces itself
-- afterwards. Then the first one leaves.
def handover : List Input := [
  .wsWorker 0 DefaultId.nonce, .recv 0 0 <| some <| .text "a", .worker 0, .worker 0, .wsUi 0, .ui 0, .ui 0,
  .wsWorker 1 DefaultId.nonce, .recv 1 0 <| some <| .text "b", .worker 1, .ui 0, .worker 1, .ui 0,
  .recv 0 1 <| some .close, .worker 0, .worker 0, .ui 0 ]

end NamedId

open NamedId in
theorem page_shows_workers_handover :
    ∃ relay sent, execute handover = some relay ∧
      relay.clients 0 = some ⟨.relaying relay.state.uiTx.length, sent⟩ ∧ sent.length = 3 ∧
      shown sent = relay.state.workers.keys.toFinset ∧ shown sent = {"b"} := by
  have ⟨relay, sent, run, he, hc, hl, hk, hr⟩ : ∃ relay sent,
      Machine.Run (Relay.step ReferenceIdentity.crates parsers) (Timely 0) (new 2 []) relay ∧
      execute handover = some relay ∧ relay.clients 0 = some ⟨.relaying relay.state.uiTx.length, sent⟩ ∧
      sent.length = 3 ∧ relay.state.workers.keys = ["b"] ∧ ∀ i, relay.unreported i = none := by
    refine ⟨_, _, ?_, rfl, rfl, rfl, by rfl, by rintro (_ | _ | _) <;> rfl⟩
    refine .cons (i := .wsWorker 0 DefaultId.nonce) (timely_of_clients nofun) rfl ?_
    refine .cons (i := .recv 0 0 <| some <| .text "a") (timely_of_clients nofun) rfl ?_
    refine .cons (i := .worker 0) (timely_of_clients nofun) rfl ?_
    refine .cons (i := .worker 0) (timely_of_clients nofun) rfl ?_
    refine .cons (i := .wsUi 0) (timely_of_clients nofun) rfl ?_
    refine .cons (i := .ui 0) (timely_of_phase rfl nofun nofun) rfl ?_
    refine .cons (i := .ui 0) (timely_of_phase rfl nofun nofun) rfl ?_
    refine .cons (i := .wsWorker 1 DefaultId.nonce) ⟨nofun, nofun, nofun⟩ rfl ?_
    refine .cons (i := .recv 1 0 <| some <| .text "b") ⟨nofun, nofun, nofun⟩ rfl ?_
    refine .cons (i := .worker 1) ⟨?_, nofun, nofun⟩ rfl ?_
    · rintro _ _ _ _ ⟨⟩ ⟨⟩
    refine .cons (i := .ui 0) ⟨nofun, ?_, nofun⟩ rfl ?_
    · rintro _ _ ⟨⟩ workerId
      by_cases hb : workerId = "b"
      case pos => exact .inr ⟨1, .add "b", rfl, hb.symm⟩
      case neg =>
        refine .inl ?_
        show workerId ∈ insert "a" (∅ : Finset String) ↔ workerId ∈ AList.insert "b" _ (AList.insert "a" _ ∅)
        rw [Finset.mem_insert, AList.mem_insert, AList.mem_insert, or_iff_right hb]
        exact or_congr_right <| iff_of_false (Finset.notMem_empty _) (AList.notMem_empty _)
    refine .cons (i := .worker 1) ⟨?_, nofun, nofun⟩ rfl ?_
    · rintro _ _ _ _ ⟨⟩ ⟨⟩ -
      exact .inl <| by decide
    refine .cons (i := .ui 0) ⟨nofun, nofun, ?_⟩ (step_ui rfl (by decide) rfl) ?_
    · rintro _ _ - ⟨⟩
      decide
    refine .cons (i := .recv 0 1 <| some .close) ⟨nofun, nofun, nofun⟩ rfl ?_
    refine .cons (i := .worker 0) ⟨?_, nofun, nofun⟩ rfl ?_
    · rintro _ _ _ _ ⟨⟩ ⟨⟩
    refine .cons (i := .worker 0) ⟨?_, nofun, nofun⟩ rfl ?_
    · rintro _ _ _ _ ⟨⟩ ⟨⟩ -
      exact .inl <| by decide
    refine .cons (i := .ui 0) ⟨nofun, nofun, ?_⟩ (step_ui rfl (by decide) rfl) .refl
    rintro _ _ - ⟨⟩
    decide
  have hs := page_shows_workers run hc fun workerId ⟨i, _, hi, _⟩ => by cases (hr i).symm.trans hi
  exact ⟨relay, sent, he, hc, hl, hs, hs.trans <| by rw [hk]; rfl⟩

namespace DefaultId

-- A worker registers between the list of the workers and the subscription of the client.
def gap : List Input :=
  [.wsUi 0, .ui 0] ++ register 0 ++ [.worker 0, .ui 0]

-- A worker connects again before its departure is reported.
def overtaken : List Input :=
  [.wsUi 0, .ui 0, .ui 0] ++ register 0 ++ [.worker 0, .recv 0 1 <| some .close, .worker 0] ++ register 1 ++
    [.worker 1, .worker 0, .ui 0, .ui 0, .ui 0]

end DefaultId

-- A client that has got all events does not show the worker.
open DefaultId in
theorem gap_hides_worker :
    (∃ relay sent, execute gap = some relay ∧ relay.clients 0 = some ⟨.relaying relay.state.uiTx.length, sent⟩ ∧
      (∀ workerId, ¬relay.Unreported workerId) ∧ shown sent ≠ relay.state.workers.keys.toFinset) ∧
    (∃ relay sent, execute overtaken = some relay ∧ relay.clients 0 = some ⟨.relaying relay.state.uiTx.length, sent⟩ ∧
      (∀ workerId, ¬relay.Unreported workerId) ∧ shown sent ≠ relay.state.workers.keys.toFinset) := by
  constructor
  · refine ⟨_, _, rfl, rfl, ?_, ?_⟩
    · rintro workerId ⟨_ | i, change, hc, -⟩ <;> cases hc
    · exact fun h => by cases congrArg Finset.card h
  · refine ⟨_, _, rfl, rfl, ?_, ?_⟩
    · rintro workerId ⟨_ | _ | i, change, hc, -⟩ <;> cases hc
    · exact fun h => by cases congrArg Finset.card h

end Relay
