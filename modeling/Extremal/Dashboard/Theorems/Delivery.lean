import Extremal.Dashboard.Theorems.Auth
import Extremal.Worker.Theorems.Telemetry

-- What a worker has written on a connection and what the relay makes of it.

-- The events that the task of a connection has sent.
def DashboardState.sentBy (state : DashboardState) (i : Nat) : List UiEvent :=
  state.uiTx.filterMap fun (j, event) => if j = i then some event else none

-- What the relay shows of a worker.
def DashboardClient.announcement (client : DashboardClient) : UiEvent :=
  .workerConnected {
    workerId := client.workerId
    keyId    := client.identity.elim "" (·.keyId)
    n        := client.n
    strategy := client.strategy
    metadata := client.metadata
    verified := client.identity.isSome
    apiAddr  := client.apiAddr }

namespace WorkerPhase

-- The info of a worker that has registered, before and after the relay announces it.

def enlisted : WorkerPhase → Option WorkerInfo
  | registering info | registered info => some info
  | _                                  => none

def onAir : WorkerPhase → Option WorkerInfo
  | relaying info | leaving info | unregistered info => some info
  | _                                                => none

theorem not_onAir_of_enlisted {phase : WorkerPhase} {info : WorkerInfo} (h : phase.enlisted = some info) :
    phase.onAir = none := by
  cases phase <;> first | rfl | nomatch h

end WorkerPhase

namespace Relay

section Story

variable (crates : IdentityCrates) (parsers : Parsers)

-- All that a connection has received.
def received (inputs : List Input) (i : Nat) : List (Option Recv) :=
  inputs.filterMap (·.received i)

-- The event that a relayed message causes.
def eventOf (info : WorkerInfo) : Option Recv → Option UiEvent
  | some result => (relayMessage parsers info result).2
  | none        => none

-- What a connection has sent at the point at which its task is.
inductive Story (nonce : Vector UInt8 32) : List (Option Recv) → WorkerPhase → List UiEvent → Prop
  | challenged : Story nonce [] .challenged []
  | refused : Story nonce results .returned []
  | accepted {point : WorkerPhase} (hp : point.enlisted = some info)
      (ht : parsers.workerMessage text = some (.register message))
      (hi : info = message.info now (isVerified crates nonce message)) :
    Story nonce [some (.text text)] point []
  | announced {point : WorkerPhase} (hp : point.onAir = some info)
      (ht : parsers.workerMessage text = some (.register message))
      (hi : info = message.info now (isVerified crates nonce message)) :
    Story nonce (some (.text text) :: rest) point (info.connected :: rest.filterMap (eventOf parsers info))
  | dismissed (ht : parsers.workerMessage text = some (.register message))
      (hi : info = message.info now (isVerified crates nonce message)) :
    Story nonce (some (.text text) :: rest) .returned
      (info.connected :: rest.filterMap (eventOf parsers info) ++ [.workerDisconnected info.workerId])

-- Each connection has its story.
structure Told (inputs : List Input) (relay : Relay) : Prop where
  silent : ∀ i, relay.connections i = none → received inputs i = [] ∧ relay.state.sentBy i = []
  story  : ∀ i nonce phase, relay.connections i = some ⟨nonce, phase⟩ →
    Story crates parsers nonce (received inputs i) phase (relay.state.sentBy i)

end Story

section Steps

variable {crates : IdentityCrates} {parsers : Parsers} {inputs : List Input} {input : Input} {relay relay' : Relay}
  {state : DashboardState} {nonce : Vector UInt8 32} {phase phase' : WorkerPhase} {info : WorkerInfo} {i j : Nat}
  {results : List (Option Recv)} {events : List UiEvent} {event : UiEvent}

theorem received_concat : received (inputs ++ [input]) i = received inputs i ++ (input.received i).toList := by
  rw [received, List.filterMap_append, received]
  congr 1

theorem received_concat_of_none (h : input.received i = none) : received (inputs ++ [input]) i = received inputs i := by
  rw [received_concat, h]
  exact List.append_nil _

theorem received_recv {now : Nat} {result : Option Recv} :
    received (inputs ++ [.recv i now result]) i = received inputs i ++ [result] := by
  rw [received_concat, Input.received, if_pos rfl]
  rfl

theorem sentBy_send_self : (state.send i event).sentBy i = state.sentBy i ++ [event] := by
  simp [DashboardState.sentBy, DashboardState.send]

theorem sentBy_send_of_ne (h : j ≠ i) : (state.send i event).sentBy j = state.sentBy j := by
  simp [DashboardState.sentBy, DashboardState.send, h.symm]

theorem sentBy_elim_self {event : Option UiEvent} :
    (event.elim state (state.send i)).sentBy i = state.sentBy i ++ event.toList := by
  cases event
  case none => exact (List.append_nil _).symm
  case some => exact sentBy_send_self

theorem sentBy_elim_of_ne {event : Option UiEvent} (h : j ≠ i) :
    (event.elim state (state.send i)).sentBy j = state.sentBy j := by
  cases event
  case none => rfl
  case some => exact sentBy_send_of_ne h

theorem onAir_relayMessage (result : Recv) : (relayMessage parsers info result).1.onAir = some info := by
  cases result <;> rfl

-- A step of the task of a connection.
theorem Told.move (h : relay.Told crates parsers inputs) (hr : ∀ j, j ≠ i → input.received j = none)
    (hs : ∀ j, j ≠ i → state.sentBy j = relay.state.sentBy j)
    (hi : Story crates parsers nonce (received (inputs ++ [input]) i) phase' (state.sentBy i)) :
    ({ relay with state }.setConnection i ⟨nonce, phase'⟩).Told crates parsers (inputs ++ [input]) := by
  constructor
  case silent =>
    intro j hj
    by_cases hji : j = i
    case pos =>
      subst hji
      cases connections_setConnection_self.symm.trans hj
    case neg =>
      rw [connections_setConnection_of_ne hji] at hj
      rw [received_concat_of_none (hr j hji)]
      exact (h.silent j hj).imp_right (hs j hji).trans
  case story =>
    intro j nonce' phase₁ hj
    by_cases hji : j = i
    case pos =>
      subst hji
      cases connections_setConnection_self.symm.trans hj
      exact hi
    case neg =>
      rw [connections_setConnection_of_ne hji] at hj
      rw [received_concat_of_none (hr j hji)]
      have hp := h.story j nonce' phase₁ hj
      rw [← hs j hji] at hp
      exact hp

-- A step of the task that sends no event.
theorem Told.quiet (h : relay.Told crates parsers inputs) (hr : ∀ j, j ≠ i → input.received j = none)
    (hu : state.uiTx = relay.state.uiTx)
    (hi : Story crates parsers nonce (received (inputs ++ [input]) i) phase' (relay.state.sentBy i)) :
    ({ relay with state }.setConnection i ⟨nonce, phase'⟩).Told crates parsers (inputs ++ [input]) := by
  have hs (j : Nat) : state.sentBy j = relay.state.sentBy j := by rw [DashboardState.sentBy, hu, DashboardState.sentBy]
  exact h.move hr (fun j _ => hs j) ((hs i).symm ▸ hi)

theorem Told.setClient {client : UiClient} {u : Nat} (h : relay.Told crates parsers inputs)
    (hr : ∀ j, input.received j = none) : (relay.setClient u client).Told crates parsers (inputs ++ [input]) where
  silent j hj := by
    rw [received_concat_of_none (hr j)]
    exact h.silent j hj
  story j nonce phase hj := by
    rw [received_concat_of_none (hr j)]
    exact h.story j nonce phase hj

theorem Story.of_challenged (h : Story crates parsers nonce results .challenged events) : results = [] ∧ events = [] := by
  cases h
  case challenged   => exact ⟨rfl, rfl⟩
  case accepted hp  => nomatch hp
  case announced hp => nomatch hp

theorem Story.of_accepted (h : Story crates parsers nonce results phase events) (hp : phase.enlisted = some info) :
    ∃ text message now, results = [some (.text text)] ∧ events = [] ∧
      parsers.workerMessage text = some (.register message) ∧ info = message.info now (isVerified crates nonce message) := by
  cases h
  case accepted ht hi hp' =>
    cases hp.symm.trans hp'
    exact ⟨_, _, _, rfl, rfl, ht, hi⟩
  case announced hp' =>
    cases hp'.symm.trans <| WorkerPhase.not_onAir_of_enlisted hp
  all_goals nomatch hp

theorem Story.of_announced (h : Story crates parsers nonce results phase events) (hp : phase.onAir = some info) :
    ∃ text message now rest, results = some (.text text) :: rest ∧
      events = info.connected :: rest.filterMap (eventOf parsers info) ∧
      parsers.workerMessage text = some (.register message) ∧ info = message.info now (isVerified crates nonce message) := by
  cases h
  case announced ht hi hp' =>
    cases hp.symm.trans hp'
    exact ⟨_, _, _, _, rfl, rfl, ht, hi⟩
  case accepted hp' =>
    cases hp.symm.trans <| WorkerPhase.not_onAir_of_enlisted hp'
  all_goals nomatch hp

-- The first message decides whether the relay goes on.
theorem story_answer (now : Nat) (result : Option Recv) :
    Story crates parsers nonce [result] (handleRegister crates parsers nonce now result) [] := by
  unfold handleRegister
  split
  case h_2 => exact .refused
  case h_1 message hm =>
    unfold waitForRegister at hm
    split at hm
    case h_1 text => exact .accepted rfl hm rfl
    case h_2      => nomatch hm

theorem Told.step (h : relay.Told crates parsers inputs) (e : relay.step crates parsers input = some relay') :
    relay'.Told crates parsers (inputs ++ [input]) := by
  cases step_effect e
  case connect i nonce hc =>
    have ⟨hr, hs⟩ := h.silent i hc
    refine h.quiet (fun _ _ => rfl) rfl ?_
    rw [received_concat_of_none rfl, hr, hs]
    exact .challenged
  case answer i nonce now result hc =>
    have ⟨hr, hs⟩ := (h.story i nonce _ hc).of_challenged
    refine h.quiet (fun j hj => received_of_ne hj) rfl ?_
    rw [received_recv, hr, hs]
    exact story_answer now result
  case relay i nonce info now result hc =>
    have ⟨text, message, _, rest, hr, hs, ht, hi⟩ := (h.story i nonce _ hc).of_announced rfl
    refine h.move (fun j hj => received_of_ne hj) (fun j hj => sentBy_elim_of_ne hj) ?_
    have hf : (rest ++ [some result]).filterMap (eventOf parsers info) =
        rest.filterMap (eventOf parsers info) ++ (relayMessage parsers info result).2.toList := by
      rw [List.filterMap_append]
      congr 1
    rw [received_recv, sentBy_elim_self, hr, hs, List.cons_append, List.cons_append, ← hf]
    exact .announced (onAir_relayMessage result) ht hi
  case reject i nonce info hc =>
    refine h.quiet (fun _ _ => rfl) rfl ?_
    have ⟨text, message, now, hr, hs, ht, hi⟩ := (h.story i nonce _ hc).of_accepted rfl
    rw [received_concat_of_none rfl, hs]
    exact .refused
  case register i nonce info hc ha hl =>
    have ⟨text, message, now, hr, hs, ht, hi⟩ := (h.story i nonce _ hc).of_accepted rfl
    refine h.quiet (fun _ _ => rfl) rfl ?_
    rw [received_concat_of_none rfl, hr, hs]
    exact .accepted rfl ht hi
  case announce i nonce info hc =>
    have ⟨text, message, now, hr, hs, ht, hi⟩ := (h.story i nonce _ hc).of_accepted rfl
    refine h.move (fun _ _ => rfl) (fun j hj => sentBy_send_of_ne hj) ?_
    rw [received_concat_of_none rfl, sentBy_send_self, hr, hs]
    exact .announced rfl ht hi
  case unregister i nonce info hc =>
    have ⟨text, message, now, rest, hr, hs, ht, hi⟩ := (h.story i nonce _ hc).of_announced rfl
    refine h.quiet (fun _ _ => rfl) rfl ?_
    rw [received_concat_of_none rfl, hr, hs]
    exact .announced rfl ht hi
  case dismiss i nonce info hc =>
    have ⟨text, message, now, rest, hr, hs, ht, hi⟩ := (h.story i nonce _ hc).of_announced rfl
    refine h.move (fun _ _ => rfl) (fun j hj => sentBy_send_of_ne hj) ?_
    rw [received_concat_of_none rfl, sentBy_send_self, hr, hs]
    exact .dismissed ht hi
  case wsUi => exact h.setClient fun _ => rfl
  case ui => exact h.setClient fun _ => rfl
  case hangUp => exact h.setClient fun _ => rfl

theorem told_of_execute {allowedKeys : List String} {maxWorkers : Nat}
    (e : Machine.execute (Relay.step crates parsers) (new maxWorkers allowedKeys) inputs = some relay) :
    relay.Told crates parsers inputs := by
  refine Machine.execute_invariant (fun inputs relay => relay.Told crates parsers inputs) Told.step ?_ e
  exact ⟨fun _ _ => ⟨rfl, rfl⟩, nofun⟩

end Steps

section Delivery

variable {crates : IdentityCrates} {parsers : Parsers} {inputs : List Input} {relay : Relay} {nonce : Vector UInt8 32}
  {phase : WorkerPhase} {info : WorkerInfo} {i : Nat} {serialize : WorkerMessage → String}

-- The texts that a connection has received.
def texts (results : List (Option Recv)) : List String :=
  results.filterMap fun
    | some (.text text) => some text
    | _                 => none

-- The events tell the messages of the texts.
theorem filterMap_eventOf (info : WorkerInfo) (results : List (Option Recv)) :
    results.filterMap (eventOf parsers info) =
      ((texts results).filterMap parsers.workerMessage).map (.workerEvent info.workerId) := by
  rw [texts, List.filterMap_filterMap, List.map_filterMap]
  congr 1
  funext result
  cases result
  case none => rfl
  case some result => cases result <;> rfl

variable {client : DashboardClient} {session : RelaySession} {sent : List WorkerMessage} {message : Register} {text : String}
  {rest : List (Option Recv)}

-- If a connection has received the beginning of what a session has written, then it has received the registration of
-- the session and then the beginning of what the session has relayed.
theorem relayed_of_texts (hs : session.Proper crates parsers client sent)
    (ht : texts (some (.text text) :: rest) <+: session.written.map serialize) :
    ∃ question register shown, session.challenge = some question ∧ client.answer crates parsers question = some register ∧
      text = serialize (.register register) ∧ shown <+: session.relayed ∧ texts rest = shown.map serialize := by
  change text :: texts rest <+: _ at ht
  rcases hs with hw | ⟨question, register, hq, ha, hw, _, _⟩
  case inl =>
    rw [hw] at ht
    nomatch List.prefix_nil.mp ht
  case inr =>
    rw [hw, List.map_cons] at ht
    have ⟨he, hr⟩ := List.cons_prefix_cons.mp ht
    refine ⟨question, register, session.relayed.take (texts rest).length, hq, ha, he, List.take_prefix .., ?_⟩
    rwa [List.prefix_iff_eq_take, ← List.map_take] at hr

-- The relay verifies a worker if and only if it has an identity.
theorem isVerified_registerMessage (hex : crates.hex.Lawful) (lawful : crates.ed25519.Lawful)
    (hk : ∀ identity ∈ client.identity,
      identity.keyId = SigningIdentity.computeKeyId crates (crates.ed25519.verifyingKey identity.signingKey)) :
    isVerified crates nonce (client.registerMessage crates <| some (challenge crates.hex nonce).nonce) =
      client.identity.isSome := by
  cases hi : client.identity
  case some identity => exact isVerified_answer hex lawful hi (hk identity hi) nonce
  case none          => simp [isVerified, DashboardClient.registerMessage, DashboardClient.signing, hi]

section

variable (hex : crates.hex.Lawful) (lawful : crates.ed25519.Lawful)
  (hk : ∀ identity ∈ client.identity,
    identity.keyId = SigningIdentity.computeKeyId crates (crates.ed25519.verifyingKey identity.signingKey))
  (round : let register := client.registerMessage crates <| some (challenge crates.hex nonce).nonce
    parsers.workerMessage (serialize <| .register register) = some (.register register))
  {question : String} (hn : parsers.challenge question = some (challenge crates.hex nonce))

include hex lawful hk round hn

-- The relay announces the worker that has answered its challenge, and goes on with what this worker has relayed.
theorem announces_session (hs : session.Proper crates parsers client sent)
    (hq : session.challenge = some (.text question)) {now : Nat}
    (hm : parsers.workerMessage text = some (.register message))
    (hi : info = message.info now (isVerified crates nonce message))
    (ht : texts (some (.text text) :: rest) <+: session.written.map serialize) :
    info.connected = client.announcement ∧ info.workerId = client.workerId ∧
      ∃ shown, shown <+: session.relayed ∧ rest.filterMap (eventOf parsers info) =
        (shown.filterMap (parsers.workerMessage <| serialize ·)).map (.workerEvent client.workerId) := by
  have ⟨question', register, shown, hq', ha, he, hr, hf⟩ := relayed_of_texts hs ht
  cases Option.some_inj.mp <| hq.symm.trans hq'
  rw [DashboardClient.answer, DashboardClient.readChallenge, hn] at ha
  cases ha
  rw [he] at hm
  cases hm.symm.trans round
  refine ⟨?_, hi ▸ rfl, shown, hr, ?_⟩
  · rw [hi, DashboardClient.announcement, ← isVerified_registerMessage hex lawful hk]
    rfl
  · rw [filterMap_eventOf, hf, hi, List.filterMap_map]
    rfl

-- Of a connection of a worker the relay broadcasts the worker as it is, verified if it has an identity, and then the
-- beginning of what the worker has relayed on the connection, message by message and under the id of the worker.
theorem relay_shows_session {t : Telemetry}
    (r : Machine.Run (Telemetry.step crates parsers client) (fun _ _ => True) .init t) (hs : session ∈ t.sessions)
    (hq : session.challenge = some (.text question)) {allowedKeys : List String} {maxWorkers : Nat}
    (e : Machine.execute (Relay.step crates parsers) (new maxWorkers allowedKeys) inputs = some relay)
    (hc : relay.connections i = some ⟨nonce, phase⟩)
    (ht : texts (received inputs i) <+: session.written.map serialize) :
    relay.state.sentBy i = [] ∨ ∃ shown, shown <+: session.relayed ∧ ∃ ended : Bool,
      relay.state.sentBy i = client.announcement ::
        (shown.filterMap (parsers.workerMessage <| serialize ·)).map (.workerEvent client.workerId) ++
        if ended then [.workerDisconnected client.workerId] else [] := by
  have hp := (Telemetry.sound_of_run r).tells.over.proper session hs
  have story := (told_of_execute e).story i nonce phase hc
  generalize received inputs i = results at ht story
  generalize relay.state.sentBy i = events at story
  cases story
  case challenged => exact .inl rfl
  case refused    => exact .inl rfl
  case accepted   => exact .inl rfl
  case announced hm hi _ =>
    have ⟨ha, _, shown, hr, hf⟩ := announces_session hex lawful hk round hn hp hq hm hi ht
    exact .inr ⟨shown, hr, false, by rw [ha, hf]; exact (List.append_nil _).symm⟩
  case dismissed hm hi =>
    have ⟨ha, hw, shown, hr, hf⟩ := announces_session hex lawful hk round hn hp hq hm hi ht
    exact .inr ⟨shown, hr, true, by rw [ha, hf, hw]; rfl⟩

end
end Delivery
end Relay

-- A worker with an identity that reports its progress and then loses its connection.
namespace ShownWorker

open Relay.DefaultId (nonce)
open Relay.KnownWorker (client message)

def progress : WorkerMessage :=
  .progress { iteration := 1, maxIters := 100, violationScore := 0, currentGraph6 := "Bw", discoveriesSoFar := 0 }

def serialize : WorkerMessage → String
  | .register _ => "register"
  | _           => "progress"

def parsers : Parsers where
  challenge _        := some <| challenge ReferenceIdentity.crates.hex nonce
  workerMessage text := if text = "register" then some <| .register message else some progress

def sends : List TelemetryInput :=
  [.shutdown false, .connect true, .read <| .text "challenge", .written true, .read <| .text "ok", .send progress,
   .trySend 0, .recv, .written true]

def receives : List Relay.Input :=
  [.wsWorker 0 nonce, .recv 0 0 <| some <| .text "register", .worker 0, .worker 0,
   .recv 0 0 <| some <| .text "progress", .recv 0 0 <| some .error, .worker 0, .worker 0]

theorem known : ∀ identity ∈ client.identity, identity.keyId = SigningIdentity.computeKeyId ReferenceIdentity.crates
    (ReferenceIdentity.crates.ed25519.verifyingKey identity.signingKey) := by
  intro identity hi
  cases hi
  unfold ReferenceIdentity.identity
  rfl

end ShownWorker

open Machine ShownWorker in
open Relay.DefaultId (nonce) in
open Relay.KnownWorker (client) in
theorem Relay.relay_shows_progress :
    ∃ t relay, execute (Telemetry.step ReferenceIdentity.crates parsers client) .init sends = some t ∧
      execute (Relay.step ReferenceIdentity.crates parsers) (new 1 []) receives = some relay ∧
      ∃ session ∈ t.sessions, session.relayed = [progress] ∧ ∃ shown, shown <+: session.relayed ∧ ∃ ended : Bool,
        relay.state.sentBy 0 = client.announcement ::
          (shown.filterMap (parsers.workerMessage <| serialize ·)).map (.workerEvent client.workerId) ++
          if ended then [.workerDisconnected client.workerId] else [] := by
  have ⟨t, et, session, hs, hq, hw⟩ : ∃ t, execute (Telemetry.step ReferenceIdentity.crates parsers client) .init sends =
      some t ∧ ∃ session ∈ t.sessions, session.challenge = some (.text "challenge") ∧
        session.written = [.register KnownWorker.message, progress] :=
    ⟨_, rfl, _, List.mem_singleton_self _, rfl, rfl⟩
  have ⟨relay, er, hc, ht, hn⟩ : ∃ relay, execute (Relay.step ReferenceIdentity.crates parsers) (new 1 []) receives =
      some relay ∧ relay.connections 0 = some ⟨nonce, .returned⟩ ∧
        texts (received receives 0) = ["register", "progress"] ∧ relay.state.sentBy 0 ≠ [] :=
    ⟨_, rfl, rfl, rfl, nofun⟩
  have hp : texts (received receives 0) <+: session.written.map serialize := by rw [ht, hw]; exact List.prefix_rfl
  have h := relay_shows_session ReferenceHex.lawful ReferenceIdentity.lawful known rfl rfl (run_of_execute et) hs hq er hc hp
  exact ⟨t, relay, et, er, session, hs, by rw [RelaySession.relayed, hw]; rfl, h.resolve_left hn⟩
