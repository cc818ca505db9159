import Extremal.Lib.Machine
import Extremal.Types.Theorems.Identity
import Extremal.Worker.Telemetry

-- The pause before the next attempt, after a number of pauses in a row.
def pause (k : Nat) : Nat :=
  min (1000 * 2 ^ k) 30000

theorem pause_succ (k : Nat) : min (pause k * 2) 30000 = pause (k + 1) := by
  rw [pause, pause, Nat.pow_succ]
  omega

namespace RelaySession

variable (crates : IdentityCrates) (parsers : Parsers) (client : DashboardClient) (received : List WorkerMessage)

-- What the task has relayed after its registration.
def relayed (session : RelaySession) : List WorkerMessage :=
  session.written.tail

-- The task registers with its answer to the challenge. Only after an acknowledgement it relays messages, and these have
-- been received in a row.
def Proper (session : RelaySession) : Prop :=
  session.written = [] ∨ ∃ message register, session.challenge = some message ∧
    client.answer crates parsers message = some register ∧
    session.written = .register register :: session.relayed ∧ session.relayed <:+: received ∧
    (session.relayed ≠ [] → ∃ text, session.ack = some (.text text))

variable {crates parsers client received} {session : RelaySession}

theorem Proper.mono (h : session.Proper crates parsers client received) (hp : received <+: received') :
    session.Proper crates parsers client received' :=
  h.imp_right fun ⟨m, r, hc, ha, hw, hi, ht⟩ => ⟨m, r, hc, ha, hw, hi.trans hp.isInfix, ht⟩

end RelaySession

namespace Telemetry

open Machine

def relayedIn (sessions : List RelaySession) : List WorkerMessage :=
  sessions.reverse.flatMap (·.relayed)

theorem relayedIn_cons (session : RelaySession) (sessions : List RelaySession) :
    relayedIn (session :: sessions) = relayedIn sessions ++ session.relayed := by
  simp [relayedIn]

section Invariant

variable (crates : IdentityCrates) (parsers : Parsers) (client : DashboardClient)

-- The sessions that are over.
structure Over (received : List WorkerMessage) (sessions : List RelaySession) : Prop where
  proper  : ∀ session ∈ sessions, session.Proper crates parsers client received
  relayed : (relayedIn sessions).Sublist received

-- What the latest session tells at the point at which the task is.
inductive Tells (received : List WorkerMessage) : ConnectionStage → List RelaySession → Prop
  | idle {point : ConnectionStage} (h : Over crates parsers client received past) (hs : ¬point.isConnected) : Tells received point past
  | challenged (h : Over crates parsers client received past) :
    Tells received .challenged (⟨none, none, []⟩ :: past)
  | registering (h : Over crates parsers client received past)
      (ha : client.answer crates parsers message = some register) :
    Tells received (.registering register) (⟨some message, none, []⟩ :: past)
  | registered (h : Over crates parsers client received past)
      (ha : client.answer crates parsers message = some register) :
    Tells received .registered (⟨some message, none, [.register register]⟩ :: past)
  | relaying (h : Over crates parsers client before past) (hs : point = .relaying ∨ point = .closing)
      (ha : client.answer crates parsers message = some register) (hr : received = before ++ relayed) :
    Tells received point (⟨some message, some (.text text), .register register :: relayed⟩ :: past)
  | writing (h : Over crates parsers client before past)
      (ha : client.answer crates parsers message = some register) (hr : received = before ++ relayed ++ [next]) :
    Tells received (.writing next) (⟨some message, some (.text text), .register register :: relayed⟩ :: past)

structure Sound (t : Telemetry) : Prop where
  connected : t.connected = t.stage.isConnected
  sleeps    : t.sleeps = (List.range t.sleeps.length).map pause
  backoff   : t.backoffMs = pause t.sleeps.length
  tells     : Tells crates parsers client t.messages.received t.stage t.sessions

variable {crates parsers client} {received received' : List WorkerMessage} {sessions : List RelaySession}
  {stage : ConnectionStage} {t t' : Telemetry} {input : TelemetryInput}

theorem Over.mono (h : Over crates parsers client received sessions) (hp : received <+: received') :
    Over crates parsers client received' sessions :=
  ⟨fun s hs => (h.proper s hs).mono hp, h.relayed.trans hp.sublist⟩

-- A session that has not relayed anything.
theorem Over.cons (h : Over crates parsers client received sessions) {session : RelaySession}
    (hs : session.Proper crates parsers client received) (hr : session.relayed = []) :
    Over crates parsers client received (session :: sessions) where
  proper  := List.forall_mem_cons.mpr ⟨hs, h.proper⟩
  relayed := by rw [relayedIn_cons, hr, List.append_nil]; exact h.relayed

theorem Over.relay {before relayed after : List WorkerMessage} {message : Recv} {register : Register} {text : String}
    (h : Over crates parsers client before sessions) (ha : client.answer crates parsers message = some register)
    (hr : received = before ++ relayed ++ after) :
    Over crates parsers client received (⟨some message, some (.text text), .register register :: relayed⟩ :: sessions) where
  proper := by
    have hb : before <+: received := by rw [hr, List.append_assoc]; exact List.prefix_append ..
    refine List.forall_mem_cons.mpr ⟨.inr ⟨message, register, rfl, ha, rfl, ?_, fun _ => ⟨text, rfl⟩⟩, ?_⟩
    · exact hr ▸ ⟨before, after, rfl⟩
    · exact fun s hs => (h.proper s hs).mono hb
  relayed := by
    rw [relayedIn_cons, hr]
    exact (h.relayed.append (List.Sublist.refl relayed)).trans <| List.sublist_append_left ..

-- After its last step with the relay every session is over.
theorem Tells.over (h : Tells crates parsers client received stage sessions) :
    Over crates parsers client received sessions := by
  cases h
  case idle _ h        => exact h
  case challenged h    => exact h.cons (.inl rfl) rfl
  case registering h _ => exact h.cons (.inl rfl) rfl
  case registered h ha =>
    exact h.cons (.inr ⟨_, _, rfl, ha, rfl, List.nil_infix, fun hn => absurd rfl hn⟩) rfl
  case relaying h ha hr hs => exact h.relay ha <| hr.trans (List.append_nil _).symm
  case writing h ha hr     => exact h.relay ha hr

section Inversion

theorem Tells.of_challenged (h : Tells crates parsers client received .challenged sessions) :
    ∃ past, sessions = ⟨none, none, []⟩ :: past ∧ Over crates parsers client received past := by
  cases h
  case idle hs _      => exact absurd rfl hs
  case relaying hs    => simp at hs
  case challenged h   => exact ⟨_, rfl, h⟩

theorem Tells.of_registering (h : Tells crates parsers client received (.registering register) sessions) :
    ∃ past message, sessions = ⟨some message, none, []⟩ :: past ∧ Over crates parsers client received past ∧
      client.answer crates parsers message = some register := by
  cases h
  case idle hs _        => exact absurd rfl hs
  case relaying hs      => simp at hs
  case registering h ha => exact ⟨_, _, rfl, h, ha⟩

theorem Tells.of_registered (h : Tells crates parsers client received .registered sessions) :
    ∃ past message register, sessions = ⟨some message, none, [.register register]⟩ :: past ∧
      Over crates parsers client received past ∧ client.answer crates parsers message = some register := by
  cases h
  case idle hs _       => exact absurd rfl hs
  case relaying hs     => simp at hs
  case registered h ha => exact ⟨_, _, _, rfl, h, ha⟩

theorem Tells.of_relaying (h : Tells crates parsers client received stage sessions)
    (hs : stage = .relaying ∨ stage = .closing) :
    ∃ past message text register relayed before,
      sessions = ⟨some message, some (.text text), .register register :: relayed⟩ :: past ∧
      Over crates parsers client before past ∧ client.answer crates parsers message = some register ∧
      received = before ++ relayed := by
  cases h
  case relaying h ha hr _ => exact ⟨_, _, _, _, _, _, rfl, h, ha, hr⟩
  case idle hn _          => rcases hs with rfl | rfl <;> exact absurd rfl hn
  all_goals simp at hs

theorem Tells.of_writing (h : Tells crates parsers client received (.writing next) sessions) :
    ∃ past message text register relayed before,
      sessions = ⟨some message, some (.text text), .register register :: relayed⟩ :: past ∧
      Over crates parsers client before past ∧ client.answer crates parsers message = some register ∧
      received = before ++ relayed ++ [next] := by
  cases h
  case idle hs _       => exact absurd rfl hs
  case relaying hs     => simp at hs
  case writing h ha hr => exact ⟨_, _, _, _, _, _, rfl, h, ha, hr⟩

end Inversion

theorem sound_init : (init).Sound crates parsers client where
  connected := rfl
  sleeps    := rfl
  backoff   := rfl
  tells     := .idle ⟨nofun, List.Sublist.refl _⟩ nofun

-- The handles change nothing of what the task does.
theorem Sound.pass (h : t.Sound crates parsers client) (passing : List WorkerMessage) (message : WorkerMessage) :
    { t with passing, messages := (t.messages.trySend message).getD t.messages }.Sound crates parsers client := by
  refine { h with tells := ?_ }
  cases e : t.messages.trySend message
  case none          => exact h.tells
  case some messages =>
    have ⟨_, _, _, hr, _⟩ := BoundedChannel.trySend_eq_some e
    change Tells crates parsers client messages.received _ _
    rw [hr]
    exact h.tells

-- The task has no connection any more.
theorem Sound.idle (h : t.Sound crates parsers client) {t' : Telemetry} (hc : ¬t'.connected) (hs : ¬t'.stage.isConnected)
    (hp : t'.sleeps = t.sleeps) (hb : t'.backoffMs = t.backoffMs)
    (ho : Over crates parsers client t'.messages.received t'.sessions) : t'.Sound crates parsers client where
  connected := by rw [Bool.not_eq_true] at hc hs; rw [hc, hs]
  sleeps    := by rw [hp]; exact h.sleeps
  backoff   := by rw [hp, hb]; exact h.backoff
  tells     := .idle ho hs

theorem Sound.wake (h : t.Sound crates parsers client) (hs : t.stage = .sleeping) :
    (t.wake.goto .top).Sound crates parsers client where
  connected := by
    have hc := h.connected
    rwa [hs] at hc
  sleeps := by
    change t.sleeps ++ [t.backoffMs] = (List.range (t.sleeps ++ [t.backoffMs]).length).map pause
    rw [List.length_append, List.length_singleton, List.range_succ, List.map_append, ← h.sleeps, h.backoff]
    rfl
  backoff := by
    change min (t.backoffMs * 2) 30000 = pause (t.sleeps ++ [t.backoffMs]).length
    rw [List.length_append, List.length_singleton, h.backoff, pause_succ]
  tells := .idle (h.tells.over.mono <| List.prefix_append ..) nofun

theorem sound_step (h : t.Sound crates parsers client) (e : t.step crates parsers client input = some t') :
    t'.Sound crates parsers client := by
  have ht := h.tells
  have hc := h.connected
  simp only [step] at e
  split at e
  case h_1 message =>
    have ⟨_, e⟩ := Option.ite_none_right_eq_some.mp e
    cases e
    rw [send]
    split
    case isTrue  => exact { h with }
    case isFalse => exact h
  case h_2 index =>
    have ⟨message, _, e⟩ := Option.map_eq_some_iff.mp e
    subst e
    exact h.pass ..
  case h_3 =>
    have ⟨_, e⟩ := Option.ite_none_right_eq_some.mp e
    cases e
    exact { h with }
  case h_4 signalled hs =>
    rw [hs] at hc
    split at e <;> cases e
    case isTrue  => exact h.idle (by simp [stop, hc, ConnectionStage.isConnected]) nofun rfl rfl ht.over
    case isFalse => exact h.idle (by simp [goto, hc, ConnectionStage.isConnected]) nofun rfl rfl ht.over
  case h_5 ok hs =>
    rw [hs] at hc
    split at e <;> cases e
    case isTrue  => exact ⟨rfl, rfl, rfl, .challenged ht.over⟩
    case isFalse => exact h.idle (by simp [goto, hc, ConnectionStage.isConnected]) nofun rfl rfl ht.over
  case h_6 message hs =>
    rw [hs] at ht hc
    have ⟨past, hp, ho⟩ := ht.of_challenged
    split at e <;> cases e
    case h_1 register ha =>
      refine ⟨hc, h.sleeps, h.backoff, ?_⟩
      simp only [goto, inSession, hp]
      exact .registering ho ha
    case h_2 =>
      refine h.idle nofun nofun rfl rfl ?_
      simp only [disconnect, inSession, hp]
      exact ho.cons (.inl rfl) rfl
  case h_7 register ok hs =>
    rw [hs] at ht hc
    have ⟨past, message, hp, ho, ha⟩ := ht.of_registering
    split at e <;> cases e
    case isTrue =>
      refine ⟨hc, h.sleeps, h.backoff, ?_⟩
      simp only [goto, write, inSession, hp]
      exact .registered ho ha
    case isFalse => exact h.idle nofun nofun rfl rfl ht.over
  case h_8 message hs =>
    rw [hs] at ht hc
    have ⟨past, challenge, register, hp, ho, ha⟩ := ht.of_registered
    split at e <;> cases e
    case isTrue hm =>
      refine ⟨hc, h.sleeps, h.backoff, ?_⟩
      cases message
      case text text =>
        simp only [goto, inSession, hp]
        exact .relaying ho (.inl rfl) ha (List.append_nil _).symm
      all_goals nomatch hm
    case isFalse =>
      refine h.idle nofun nofun rfl rfl ?_
      simp only [disconnect, inSession, hp]
      exact ho.cons (.inr ⟨_, _, rfl, ha, rfl, List.nil_infix, fun hn => absurd rfl hn⟩) rfl
  case h_9 hs =>
    rw [hs] at ht hc
    have ⟨past, challenge, text, register, relayed, before, hp, ho, ha, hr⟩ := ht.of_relaying (.inl rfl)
    split at e
    case h_1 message messages hm =>
      cases e
      have ⟨_, _, hm, _⟩ := BoundedChannel.tryRecv_eq_some hm
      refine ⟨hc, h.sleeps, h.backoff, ?_⟩
      simp only [goto, hp, hm, hr]
      exact .writing ho ha rfl
    case h_2 =>
      split at e <;> cases e
      exact h.idle nofun nofun rfl rfl ht.over
  case h_10 message ok hs =>
    rw [hs] at ht hc
    have ⟨past, challenge, text, register, relayed, before, hp, ho, ha, hr⟩ := ht.of_writing
    split at e <;> cases e
    case isTrue =>
      refine ⟨hc, h.sleeps, h.backoff, ?_⟩
      simp only [goto, write, inSession, hp]
      exact .relaying ho (.inl rfl) ha <| hr.trans <| List.append_assoc ..
    case isFalse => exact h.idle nofun nofun rfl rfl ht.over
  case h_11 message hs =>
    split at e <;> cases e
    case isTrue  => exact h.idle nofun nofun rfl rfl ht.over
    case isFalse => exact h
  case h_12 signalled hs =>
    rw [hs] at ht hc
    split at e <;> cases e
    case isTrue =>
      have ⟨past, challenge, text, register, relayed, before, hp, ho, ha, hr⟩ := ht.of_relaying (.inl rfl)
      refine ⟨hc, h.sleeps, h.backoff, ?_⟩
      simp only [goto, hp]
      exact .relaying ho (.inr rfl) ha hr
    case isFalse => exact h
  case h_13 =>
    cases e
    exact h.idle nofun nofun rfl rfl ht.over
  case h_14 signalled hs =>
    rw [hs] at hc
    split at e <;> cases e
    case isTrue  => exact h.idle (by simp [stop, hc, ConnectionStage.isConnected]) nofun rfl rfl ht.over
    case isFalse => exact h.idle (by simp [goto, hc, ConnectionStage.isConnected]) nofun rfl rfl ht.over
  case h_15 hs =>
    cases e
    exact h.wake hs
  case h_16 => nomatch e

theorem sound_of_run (r : Run (step crates parsers client) (fun _ _ => True) init t) : t.Sound crates parsers client :=
  r.invariant (Sound crates parsers client) (fun h _ => sound_step h) sound_init

end Invariant

-- Every connection begins with the answer to its challenge, and after an acknowledgement it carries messages that the
-- handles have passed one after the other. Over all connections no message is written twice, or out of order. The task
-- knows whether it is connected, and its pauses double up to half a minute until it is.
theorem sessions_relay (crates : IdentityCrates) (parsers : Parsers) (client : DashboardClient) {t : Telemetry}
    (r : Run (step crates parsers client) (fun _ _ => True) init t) :
    (∀ session ∈ t.sessions, session.Proper crates parsers client t.messages.received) ∧
    (relayedIn t.sessions).Sublist t.messages.sent ∧
    t.connected = t.stage.isConnected ∧
    t.sleeps = (List.range t.sleeps.length).map pause := by
  have h := sound_of_run r
  exact ⟨h.tells.over.proper, h.tells.over.relayed.trans BoundedChannel.received_prefix.sublist, h.connected, h.sleeps⟩

end Telemetry

-- A client without an identity, whose relay lets it wait twice.
namespace ReferenceTelemetry

def client : DashboardClient where
  identity := none
  workerId := "worker"
  n        := 3
  strategy := "tree"
  metadata := none
  apiAddr  := none

def parsers : Parsers where
  challenge _     := none
  workerMessage _ := none

def progress (iteration : UInt64) : WorkerMessage :=
  .progress { iteration, maxIters := 100, violationScore := 0, currentGraph6 := "Bw", discoveriesSoFar := 1 }

def inputs : List TelemetryInput :=
  [.shutdown false, .connect false, .shutdown false, .slept, .shutdown false, .connect true, .send (progress 1),
   .read .closed, .shutdown false, .connect true, .read <| .text "", .written true, .trySend 0, .send (progress 2),
   .trySend 0, .read <| .text "ok", .recv, .written true, .recv, .written true, .read .close, .shutdown false, .slept,
   .shutdown false, .connect false, .shutdown false, .slept]

end ReferenceTelemetry

open Machine ReferenceTelemetry Telemetry in
theorem Telemetry.worker_sessions_relay :
    ∃ t ∈ execute (step ReferenceIdentity.crates parsers client) init inputs,
      t.sessions.map (·.written.length) = [3, 0] ∧ t.sleeps = [1000, 2000] ∧
      (relayedIn t.sessions).Sublist t.messages.sent := by
  have ⟨t, e, hw, hs⟩ : ∃ t ∈ execute (step ReferenceIdentity.crates parsers client) init inputs,
      t.sessions.map (·.written.length) = [3, 0] ∧ t.sleeps = [1000, 2000] := by decide +kernel
  exact ⟨t, e, hw, hs, (sessions_relay ReferenceIdentity.crates parsers client <| run_of_execute e).2.1⟩
