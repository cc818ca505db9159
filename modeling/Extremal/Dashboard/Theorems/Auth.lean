import Extremal.Dashboard.Theorems.Server
import Extremal.Worker.Dashboard

def Relay.Input.received (i : Nat) : Input → Option (Option Recv)
  | recv j _ result => if j = i then some result else none
  | _               => none

-- What a connection receives first.
def firstMessage (inputs : List Relay.Input) (i : Nat) : Option (Option Recv) :=
  inputs.findSome? (·.received i)

-- The key belongs to the key id, and its signature is valid for the nonce.
def Register.Proves (crates : IdentityCrates) (message : Register) (nonce : Vector UInt8 32) : Prop :=
  ∃ publicKeyHex signatureHex, message.publicKeyHex = some publicKeyHex ∧ message.nonceSignature = some signatureHex ∧
    SigningIdentity.computeKeyIdFromHex crates publicKeyHex = .ok message.keyId ∧
    SigningIdentity.verifySignature crates publicKeyHex nonce.toList signatureHex = .ok true

-- The worker that an event relays.
def UiEvent.Relays (workerId : String) : UiEvent → Prop
  | workerConnected event  => event.workerId = workerId
  | workerEvent sender _   => sender = workerId
  | workerDisconnected _   => False

-- The events that the task of a connection sends.
def UiEvent.Of (info : WorkerInfo) (event : UiEvent) : Prop :=
  event = info.connected ∨ event = .workerDisconnected info.workerId ∨ ∃ message, event = .workerEvent info.workerId message

namespace WorkerPhase

def info : WorkerPhase → Option WorkerInfo
  | registering info | registered info | relaying info | leaving info | unregistered info => some info
  | challenged | returned                                                                  => none

-- The info of a worker that the relay has accepted.
def admitted : WorkerPhase → Option WorkerInfo
  | registered info | relaying info | leaving info | unregistered info => some info
  | challenged | registering _ | returned                              => none

theorem info_of_admitted {phase : WorkerPhase} {info : WorkerInfo} (h : phase.admitted = some info) :
    phase.info = some info := by
  cases phase <;> first | exact h | cases h

end WorkerPhase

section Verify

variable {crates : IdentityCrates} {nonce : Vector UInt8 32} {message : Register}

theorem verifyWorkerAuth_iff {claimedKeyId publicKeyHex signatureHex : String} {nonceBytes : List UInt8} :
    verifyWorkerAuth crates claimedKeyId publicKeyHex nonceBytes signatureHex = .ok true ↔
      SigningIdentity.computeKeyIdFromHex crates publicKeyHex = .ok claimedKeyId ∧
      SigningIdentity.verifySignature crates publicKeyHex nonceBytes signatureHex = .ok true := by
  rw [verifyWorkerAuth]
  cases SigningIdentity.computeKeyIdFromHex crates publicKeyHex
  case error => simp [bind, Except.bind]
  case ok computedKeyId =>
    by_cases h : computedKeyId = claimedKeyId
    case pos => simp [bind, Except.bind, h]
    case neg => simp [bind, Except.bind, h, pure, Except.pure]

theorem isVerified_iff : isVerified crates nonce message = true ↔ message.Proves crates nonce := by
  rw [isVerified, Register.Proves]
  cases message.publicKeyHex
  case none => simp
  case some publicKeyHex =>
    cases message.nonceSignature
    case none => simp
    case some signatureHex =>
      simp only [Option.some.injEq, ↓existsAndEq, true_and, ← verifyWorkerAuth_iff]
      split <;> simp_all

end Verify

theorem Register.verified_info {message : Register} {now : Nat} {verified : Bool} :
    (message.info now verified).verified = verified := rfl

theorem Register.keyId_info {message : Register} {now : Nat} {verified : Bool} :
    (message.info now verified).keyId = message.keyId := rfl

-- A worker that answers the challenge of the relay is verified.
theorem isVerified_answer {crates : IdentityCrates} {client : DashboardClient} {identity : SigningIdentity}
    (hex : crates.hex.Lawful) (lawful : crates.ed25519.Lawful) (hi : client.identity = some identity)
    (hk : identity.keyId = SigningIdentity.computeKeyId crates (crates.ed25519.verifyingKey identity.signingKey))
    (nonce : Vector UInt8 32) :
    isVerified crates nonce (client.registerMessage crates <| some (challenge crates.hex nonce).nonce) = true := by
  have signing : client.signing crates (some (challenge crates.hex nonce).nonce) = some (identity, nonce.toList) := by
    simp [DashboardClient.signing, hi, challenge, hex.decode_encode]
  refine isVerified_iff.mpr ⟨identity.publicKeyHex crates, identity.sign crates nonce.toList, ?_, ?_, ?_, ?_⟩
  · simp [DashboardClient.registerMessage, signing]
  · simp [DashboardClient.registerMessage, signing]
  · rw [SigningIdentity.computeKeyIdFromHex, SigningIdentity.decodePublicKey_publicKeyHex hex lawful]
    simp [DashboardClient.registerMessage, hi, hk, Except.map]
  · rw [SigningIdentity.verifySignature_sign hex lawful, lawful.verify_sign]

section FirstMessage

variable {inputs : List Relay.Input} {input : Relay.Input} {i : Nat} {result : Option Recv}

theorem firstMessage_concat : firstMessage (inputs ++ [input]) i = (firstMessage inputs i).or (input.received i) := by
  simp [firstMessage, List.findSome?_append]

theorem firstMessage_concat_of_some (h : firstMessage inputs i = some result) :
    firstMessage (inputs ++ [input]) i = some result := by
  rw [firstMessage_concat, h]
  rfl

theorem firstMessage_concat_recv {now : Nat} (h : firstMessage inputs i = none) :
    firstMessage (inputs ++ [.recv i now result]) i = some result := by
  rw [firstMessage_concat, h]
  exact if_pos rfl

end FirstMessage

namespace Relay

section

variable (crates : IdentityCrates) (parsers : Parsers) (inputs : List Input) (relay : Relay)

-- A connection with this nonce has received a registration first.
def Registers (i : Nat) (nonce : Vector UInt8 32) (message : Register) : Prop :=
  (∃ phase, relay.connections i = some ⟨nonce, phase⟩) ∧
  ∃ text, firstMessage inputs i = some (some (.text text)) ∧ parsers.workerMessage text = some (.register message)

-- The info is the one of the registration.
def Vouched (i : Nat) (info : WorkerInfo) : Prop :=
  ∃ nonce message now, relay.Registers parsers inputs i nonce message ∧
    info = message.info now (isVerified crates nonce message)

def Cleared (i : Nat) (info : WorkerInfo) : Prop :=
  relay.Vouched crates parsers inputs i info ∧ relay.state.Allows info

-- The connection has shown that it has a key, over its own nonce. An allow-list has the id of the key.
def Proven (allowedKeys : List String) (i : Nat) (workerId keyId : String) : Prop :=
  ∃ nonce message, relay.Registers parsers inputs i nonce message ∧ message.workerId = workerId ∧ message.keyId = keyId ∧
    message.Proves crates nonce ∧ (allowedKeys ≠ [] → keyId ∈ allowedKeys)

-- All that the relay knows, sends and lists comes from registrations.
structure Genuine (allowedKeys : List String) : Prop where
  allowed  : relay.state.allowedKeys = allowedKeys
  silent   : ∀ i, (∀ nonce phase, relay.connections i = some ⟨nonce, phase⟩ → phase = .challenged) →
    firstMessage inputs i = none
  vouched  : ∀ i nonce phase info, relay.connections i = some ⟨nonce, phase⟩ → phase.info = some info →
    relay.Vouched crates parsers inputs i info
  admitted : ∀ i nonce phase info, relay.connections i = some ⟨nonce, phase⟩ → phase.admitted = some info →
    relay.state.Allows info
  sent     : ∀ i event, (i, event) ∈ relay.state.uiTx → ∃ info, relay.Cleared crates parsers inputs i info ∧ event.Of info
  listed   : ∀ workerId info, relay.state.workers.lookup workerId = some info →
    ∃ i, relay.Cleared crates parsers inputs i info
  shown    : ∀ u client, relay.clients u = some client →
    ∀ event ∈ client.sent, ∃ i info, relay.Cleared crates parsers inputs i info ∧ event.Of info
  pending  : ∀ u client pending, relay.clients u = some client → client.phase = .listing pending →
    ∀ info ∈ pending, ∃ i, relay.Cleared crates parsers inputs i info

end

section

variable {crates : IdentityCrates} {parsers : Parsers} {inputs : List Input} {input : Input} {relay relay' : Relay}
  {allowedKeys : List String} {maxWorkers i : Nat} {nonce : Vector UInt8 32} {phase phase' : WorkerPhase}
  {info : WorkerInfo} {state : DashboardState}

theorem allows_congr (hk : relay'.state.allowedKeys = relay.state.allowedKeys) :
    relay'.state.Allows info ↔ relay.state.Allows info := by
  rw [DashboardState.Allows, DashboardState.Allows, hk]

-- The connections keep their nonces, and the relay its allow-list.
structure Keeps (relay relay' : Relay) : Prop where
  nonce   : ∀ i nonce phase, relay.connections i = some ⟨nonce, phase⟩ → ∃ phase', relay'.connections i = some ⟨nonce, phase'⟩
  allowed : relay'.state.allowedKeys = relay.state.allowedKeys

theorem Vouched.mono (h : relay.Vouched crates parsers inputs i info) (hk : relay.Keeps relay') :
    relay'.Vouched crates parsers (inputs ++ [input]) i info := by
  have ⟨nonce, message, now, ⟨⟨phase, hc⟩, text, hf, ht⟩, hi⟩ := h
  exact ⟨nonce, message, now, ⟨hk.nonce i nonce phase hc, text, firstMessage_concat_of_some hf, ht⟩, hi⟩

theorem Cleared.mono (h : relay.Cleared crates parsers inputs i info) (hk : relay.Keeps relay') :
    relay'.Cleared crates parsers (inputs ++ [input]) i info :=
  ⟨h.1.mono hk, (allows_congr hk.allowed).mpr h.2⟩

theorem keeps_setConnection (hc : relay.connections i = some ⟨nonce, phase⟩)
    (hk : state.allowedKeys = relay.state.allowedKeys) :
    relay.Keeps <| { relay with state }.setConnection i ⟨nonce, phase'⟩ where
  nonce j nonce' phase hj := by
    by_cases hji : j = i
    case pos =>
      subst hji
      cases hc.symm.trans hj
      exact ⟨phase', Function.update_self ..⟩
    case neg => exact ⟨phase, by simp [setConnection, hji, hj]⟩
  allowed := hk

theorem received_of_ne {j now : Nat} {result : Option Recv} (h : j ≠ i) : (Input.recv i now result).received j = none :=
  if_neg h.symm

-- A step of the task of a connection. It may send an event or insert an entry for its worker.
theorem Genuine.move (h : relay.Genuine crates parsers inputs allowedKeys)
    (keeps : relay.Keeps <| { relay with state }.setConnection i ⟨nonce, phase'⟩)
    (hi : ∀ j, j ≠ i → input.received j = none)
    (hf : phase' = .challenged → firstMessage (inputs ++ [input]) i = none)
    (hv : ∀ info, phase'.info = some info →
      ({ relay with state }.setConnection i ⟨nonce, phase'⟩).Vouched crates parsers (inputs ++ [input]) i info)
    (ha : ∀ info, phase'.admitted = some info → relay.state.Allows info)
    (he : ∀ j event, (j, event) ∈ state.uiTx →
      (j, event) ∈ relay.state.uiTx ∨ j = i ∧ ∃ info, relay.Cleared crates parsers inputs i info ∧ event.Of info)
    (hw : ∀ workerId info, state.workers.lookup workerId = some info →
      relay.state.workers.lookup workerId = some info ∨ phase'.admitted = some info) :
    ({ relay with state }.setConnection i ⟨nonce, phase'⟩).Genuine crates parsers (inputs ++ [input]) allowedKeys := by
  refine ⟨keeps.allowed.trans h.allowed, fun j hj => ?_, fun j nonce' phase₁ info hj hinfo => ?_,
    fun j nonce' phase₁ info hj hinfo => (allows_congr keeps.allowed).mpr ?_, fun j event hj => ?_,
    fun workerId info hinfo => ?_, fun u client hu event hevent => ?_, fun u client pending hu hpending info hinfo => ?_⟩
  · by_cases hji : j = i
    case pos =>
      subst hji
      exact hf <| hj nonce phase' connections_setConnection_self
    case neg =>
      rw [firstMessage_concat, hi j hji, Option.or_none]
      refine h.silent j fun nonce' phase₁ hc => hj nonce' phase₁ ?_
      rwa [connections_setConnection_of_ne hji]
  · by_cases hji : j = i
    case pos =>
      subst hji
      cases connections_setConnection_self.symm.trans hj
      exact hv info hinfo
    case neg =>
      rw [connections_setConnection_of_ne hji] at hj
      exact (h.vouched j nonce' phase₁ info hj hinfo).mono keeps
  · by_cases hji : j = i
    case pos =>
      subst hji
      cases connections_setConnection_self.symm.trans hj
      exact ha info hinfo
    case neg =>
      rw [connections_setConnection_of_ne hji] at hj
      exact h.admitted j nonce' phase₁ info hj hinfo
  · obtain hj | ⟨rfl, info, hcleared, hevent⟩ := he j event hj
    case inl =>
      have ⟨info, hcleared, hevent⟩ := h.sent j event hj
      exact ⟨info, hcleared.mono keeps, hevent⟩
    case inr => exact ⟨info, hcleared.mono keeps, hevent⟩
  · obtain hinfo | hinfo := hw workerId info hinfo
    case inl =>
      have ⟨j, hcleared⟩ := h.listed workerId info hinfo
      exact ⟨j, hcleared.mono keeps⟩
    case inr =>
      refine ⟨i, hv info <| WorkerPhase.info_of_admitted hinfo, ?_⟩
      exact (allows_congr keeps.allowed).mpr <| ha info hinfo
  · have ⟨j, info, hcleared, hevent⟩ := h.shown u client hu event hevent
    exact ⟨j, info, hcleared.mono keeps, hevent⟩
  · have ⟨j, hcleared⟩ := h.pending u client pending hu hpending info hinfo
    exact ⟨j, hcleared.mono keeps⟩

-- The infos of the task stay as they are, or the task returns.
theorem Genuine.proceed (h : relay.Genuine crates parsers inputs allowedKeys) (hc : relay.connections i = some ⟨nonce, phase⟩)
    (hk : state.allowedKeys = relay.state.allowedKeys) (hi : ∀ j, j ≠ i → input.received j = none)
    (hp : phase' ≠ .challenged) (hv : ∀ info, phase'.info = some info → phase.info = some info)
    (ha : ∀ info, phase'.admitted = some info → relay.state.Allows info)
    (he : ∀ j event, (j, event) ∈ state.uiTx →
      (j, event) ∈ relay.state.uiTx ∨ j = i ∧ ∃ info, phase.admitted = some info ∧ event.Of info)
    (hw : ∀ workerId info, state.workers.lookup workerId = some info →
      relay.state.workers.lookup workerId = some info ∨ phase'.admitted = some info) :
    ({ relay with state }.setConnection i ⟨nonce, phase'⟩).Genuine crates parsers (inputs ++ [input]) allowedKeys := by
  have keeps : relay.Keeps <| { relay with state }.setConnection i ⟨nonce, phase'⟩ := keeps_setConnection hc hk
  refine h.move keeps hi (absurd · hp) (fun info hinfo => ?_) ha (fun j event hj => ?_) hw
  · exact (h.vouched i nonce phase info hc <| hv info hinfo).mono keeps
  · refine (he j event hj).imp_right ?_
    intro ⟨hji, info, hinfo, hevent⟩
    refine ⟨hji, info, ⟨?_, ?_⟩, hevent⟩
    · exact h.vouched i nonce phase info hc <| WorkerPhase.info_of_admitted hinfo
    · exact h.admitted i nonce phase info hc hinfo

theorem vouched_handleRegister {now : Nat} {result : Option Recv}
    (h : (handleRegister crates parsers nonce now result).info = some info) :
    ∃ text message, result = some (.text text) ∧ parsers.workerMessage text = some (.register message) ∧
      info = message.info now (isVerified crates nonce message) := by
  rw [handleRegister] at h
  split at h
  case h_1 message hm =>
    cases h
    unfold waitForRegister at hm
    split at hm
    case h_1 text => exact ⟨text, message, rfl, hm, rfl⟩
    case h_2 => cases hm
  case h_2 => cases h

theorem admitted_handleRegister {now : Nat} {result : Option Recv} :
    (handleRegister crates parsers nonce now result).admitted = none := by
  rw [handleRegister]
  split <;> rfl

theorem of_relayMessage {result : Recv} {event : UiEvent} (h : (relayMessage parsers info result).2 = some event) :
    event.Of info := by
  cases result <;> simp only [relayMessage, Option.map_eq_some_iff, reduceCtorEq] at h
  case text =>
    obtain ⟨message, -, rfl⟩ := h
    exact .inr <| .inr ⟨message, rfl⟩

theorem phase_relayMessage (parsers : Parsers) (info : WorkerInfo) (result : Recv) :
    let phase := (relayMessage parsers info result).1
    phase ≠ .challenged ∧ phase.info = some info ∧ phase.admitted = some info := by
  cases result <;> exact ⟨nofun, rfl, rfl⟩

-- An event is one of those sent before, or the task of an admitted worker has just sent it.
theorem mem_sent_concat {j : Nat} {uiTx : List (Nat × UiEvent)} {sent event : UiEvent}
    (ha : phase.admitted = some info) (ho : sent.Of info) (hj : (j, event) ∈ uiTx ++ [(i, sent)]) :
    (j, event) ∈ uiTx ∨ j = i ∧ ∃ info, phase.admitted = some info ∧ event.Of info := by
  refine (List.mem_append.mp hj).imp_right fun hj => ?_
  cases List.mem_singleton.mp hj
  exact ⟨rfl, info, ha, ho⟩

-- A step of a client.
theorem Genuine.setClient {u : Nat} {client : UiClient} (h : relay.Genuine crates parsers inputs allowedKeys)
    (hi : ∀ j, input.received j = none)
    (hs : ∀ event ∈ client.sent, ∃ i info, relay.Cleared crates parsers inputs i info ∧ event.Of info)
    (hp : ∀ pending, client.phase = .listing pending → ∀ info ∈ pending, ∃ i, relay.Cleared crates parsers inputs i info) :
    (relay.setClient u client).Genuine crates parsers (inputs ++ [input]) allowedKeys := by
  have keeps : relay.Keeps <| relay.setClient u client := ⟨fun _ _ phase hc => ⟨phase, hc⟩, rfl⟩
  refine ⟨h.allowed, fun i hc => ?_, fun i nonce phase info hc hinfo => (h.vouched i nonce phase info hc hinfo).mono keeps,
    h.admitted, fun i event hevent => ?_, fun workerId info hinfo => ?_, fun v client' hv event hevent => ?_,
    fun v client' pending hv hpending info hinfo => ?_⟩
  · rw [firstMessage_concat, hi, Option.or_none]
    exact h.silent i hc
  · have ⟨info, hcleared, hevent⟩ := h.sent i event hevent
    exact ⟨info, hcleared.mono keeps, hevent⟩
  · have ⟨i, hcleared⟩ := h.listed workerId info hinfo
    exact ⟨i, hcleared.mono keeps⟩
  · have ⟨i, info, hcleared, hevent⟩ : ∃ i info, relay.Cleared crates parsers inputs i info ∧ event.Of info := by
      by_cases hvu : v = u
      case pos =>
        subst hvu
        cases (Function.update_self ..).symm.trans hv
        exact hs event hevent
      case neg => exact h.shown v client' ((Function.update_of_ne hvu ..).symm.trans hv) event hevent
    exact ⟨i, info, hcleared.mono keeps, hevent⟩
  · have ⟨i, hcleared⟩ : ∃ i, relay.Cleared crates parsers inputs i info := by
      by_cases hvu : v = u
      case pos =>
        subst hvu
        cases (Function.update_self ..).symm.trans hv
        exact hp pending hpending info hinfo
      case neg =>
        exact h.pending v client' pending ((Function.update_of_ne hvu ..).symm.trans hv) hpending info hinfo
    exact ⟨i, hcleared.mono keeps⟩

theorem Genuine.ui {u : Nat} {client client' : UiClient} (h : relay.Genuine crates parsers inputs allowedKeys)
    (hc : relay.clients u = some client) (hp : client.proceed relay.state = some client') :
    (relay.setClient u client').Genuine crates parsers (inputs ++ [.ui u]) allowedKeys := by
  have shown := h.shown u client hc
  have pending := fun pending => h.pending u client pending hc
  obtain ⟨phase, sent⟩ := client
  cases phase <;> simp only [UiClient.proceed] at hp
  case opened =>
    cases hp
    refine h.setClient (fun _ => rfl) shown fun pending hp info hi => ?_
    cases hp
    have ⟨⟨workerId, _⟩, hm, hi⟩ := List.mem_map.mp hi
    subst hi
    exact h.listed workerId _ <| AList.mem_lookup_iff.mpr hm
  case listing list =>
    cases list
    case nil =>
      cases hp
      exact h.setClient (fun _ => rfl) shown nofun
    case cons info rest =>
      cases hp
      have hall := List.forall_mem_cons.mp <| pending _ rfl
      refine h.setClient (fun _ => rfl) (List.forall_mem_append.mpr ⟨shown, ?_⟩) fun pending hp => ?_
      · have ⟨i, hcleared⟩ := hall.1
        exact List.forall_mem_singleton.mpr ⟨i, info, hcleared, .inl rfl⟩
      · cases hp
        exact hall.2
  case relaying next =>
    split at hp
    case isTrue =>
      cases hp
      exact h.setClient (fun _ => rfl) shown nofun
    case isFalse =>
      obtain ⟨⟨i, event⟩, he, rfl⟩ := Option.map_eq_some_iff.mp hp
      refine h.setClient (fun _ => rfl) (List.forall_mem_append.mpr ⟨shown, ?_⟩) nofun
      exact List.forall_mem_singleton.mpr ⟨i, h.sent i event <| List.mem_of_getElem? he⟩
  case returned => cases hp

theorem Genuine.step (h : relay.Genuine crates parsers inputs allowedKeys)
    (e : relay.step crates parsers input = some relay') :
    relay'.Genuine crates parsers (inputs ++ [input]) allowedKeys := by
  cases step_effect e
  case connect i nonce hc =>
    have keeps : relay.Keeps <| relay.setConnection i ⟨nonce, .challenged⟩ := by
      refine ⟨fun j nonce' phase hj => ⟨phase, ?_⟩, rfl⟩
      refine (connections_setConnection_of_ne ?_).trans hj
      rintro rfl
      cases hc.symm.trans hj
    refine h.move keeps (fun _ _ => rfl) (fun _ => ?_) nofun nofun (fun _ _ => .inl) (fun _ _ => .inl)
    rw [firstMessage_concat, h.silent i fun _ _ hj => by cases hc.symm.trans hj]
    rfl
  case answer i nonce now result hc =>
    have silent : firstMessage inputs i = none :=
      h.silent i fun _ _ hj => by
        cases hc.symm.trans hj
        rfl
    refine h.move (keeps_setConnection hc rfl) (fun _ => received_of_ne) (fun hp => ?_) (fun info hinfo => ?_)
      (fun info hinfo => ?_) (fun _ _ => .inl) (fun _ _ => .inl)
    · rw [handleRegister] at hp
      split at hp <;> cases hp
    · have ⟨text, message, hr, ht, hi⟩ := vouched_handleRegister hinfo
      refine ⟨nonce, message, now, ⟨⟨_, connections_setConnection_self⟩, text, ?_, ht⟩, hi⟩
      rw [firstMessage_concat_recv silent, hr]
    · cases admitted_handleRegister.symm.trans hinfo
  case relay info now result hc =>
    have ⟨hp, hi, ha⟩ := phase_relayMessage parsers info result
    refine h.proceed hc ?_ (fun _ => received_of_ne) hp (fun other ho => hi.symm.trans ho) (fun other ho => ?_)
      (fun j event hj => ?_) (fun workerId other ho => .inl ?_)
    · cases (relayMessage parsers info result).2 <;> rfl
    · exact h.admitted _ _ _ other hc <| ha.symm.trans ho
    · cases he : (relayMessage parsers info result).2 <;> rw [he] at hj
      case none => exact .inl hj
      case some sent => exact mem_sent_concat rfl (of_relayMessage he) hj
    · cases he : (relayMessage parsers info result).2 <;> rwa [he] at ho
  case reject hc =>
    exact h.proceed hc rfl (fun _ _ => rfl) nofun nofun nofun (fun _ _ => .inl) (fun _ _ => .inl)
  case register info hc ha hl =>
    refine h.proceed hc rfl (fun _ _ => rfl) nofun (fun _ => id) (fun info hinfo => ?_) (fun _ _ => .inl) ?_
    · cases hinfo
      exact ha
    · intro workerId other ho
      by_cases hw : workerId = info.workerId
      case pos =>
        subst hw
        exact .inr <| (AList.lookup_insert _).symm.trans ho
      case neg => exact .inl <| (AList.lookup_insert_ne hw).symm.trans ho
  case announce info hc =>
    refine h.proceed hc rfl (fun _ _ => rfl) nofun (fun _ => id) (fun info hinfo => ?_) (fun j event hj => ?_)
      (fun _ _ => .inl)
    · exact h.admitted _ _ _ info hc hinfo
    · exact mem_sent_concat rfl (.inl rfl) hj
  case unregister info hc =>
    refine h.proceed hc rfl (fun _ _ => rfl) nofun (fun _ => id) (fun info hinfo => ?_) (fun _ _ => .inl) ?_
    · exact h.admitted _ _ _ info hc hinfo
    · intro workerId other ho
      have hw : workerId ≠ info.workerId := by
        rintro rfl
        cases (AList.lookup_erase ..).symm.trans ho
      exact .inl <| (AList.lookup_erase_ne hw).symm.trans ho
  case dismiss info hc =>
    refine h.proceed hc rfl (fun _ _ => rfl) nofun nofun nofun (fun j event hj => ?_) (fun _ _ => .inl)
    exact mem_sent_concat rfl (.inr <| .inl rfl) hj
  case wsUi => exact h.setClient (fun _ => rfl) nofun nofun
  case ui hc hp => exact h.ui hc hp
  case hangUp u client hc => exact h.setClient (fun _ => rfl) (h.shown u client hc) nofun

theorem genuine_new : (new maxWorkers allowedKeys).Genuine crates parsers [] allowedKeys where
  allowed  := rfl
  silent   := fun _ _ => rfl
  vouched  := by rintro _ _ _ _ ⟨⟩
  admitted := by rintro _ _ _ _ ⟨⟩
  sent     := nofun
  listed   := nofun
  shown    := by rintro _ _ ⟨⟩
  pending  := by rintro _ _ _ ⟨⟩

theorem genuine_of_execute (e : Machine.execute (Relay.step crates parsers) (new maxWorkers allowedKeys) inputs = some relay) :
    relay.Genuine crates parsers inputs allowedKeys :=
  Machine.execute_invariant (fun inputs relay => relay.Genuine crates parsers inputs allowedKeys) Genuine.step genuine_new e

theorem Cleared.proven (h : relay.Cleared crates parsers inputs i info) (hk : relay.state.allowedKeys = allowedKeys)
    (hv : allowedKeys ≠ [] ∨ info.verified = true) :
    relay.Proven crates parsers inputs allowedKeys i info.workerId info.keyId := by
  have ⟨⟨nonce, message, now, hr, hi⟩, ha⟩ := h
  subst hi hk
  have hkeys (hne : relay.state.allowedKeys ≠ []) : isVerified crates nonce message = true ∧
      message.keyId ∈ relay.state.allowedKeys := by
    have ha := not_and.mp ha hne
    rw [not_or, Bool.not_eq_false, not_not] at ha
    exact ha
  refine ⟨nonce, message, hr, rfl, rfl, isVerified_iff.mp ?_, fun hne => (hkeys hne).2⟩
  exact hv.elim (fun hne => (hkeys hne).1) id

-- With an allow-list the relay sends events only for workers whose connection has proven an allowed key over
-- its own nonce. Without such a proof no worker is sent or listed as verified.
theorem relays_proven_workers
    (e : Machine.execute (Relay.step crates parsers) (new maxWorkers allowedKeys) inputs = some relay) :
    (allowedKeys ≠ [] → ∀ i event, (i, event) ∈ relay.state.uiTx → ∀ workerId, event.Relays workerId →
      ∃ keyId, relay.Proven crates parsers inputs allowedKeys i workerId keyId) ∧
    (∀ i event, (i, .workerConnected event) ∈ relay.state.uiTx → event.verified = true →
      relay.Proven crates parsers inputs allowedKeys i event.workerId event.keyId) ∧
    (∀ info ∈ relay.state.listWorkers, info.verified = true →
      ∃ i, relay.Proven crates parsers inputs allowedKeys i info.workerId info.keyId) ∧
    ∀ u client, relay.clients u = some client → ∀ event, .workerConnected event ∈ client.sent → event.verified = true →
      ∃ i, relay.Proven crates parsers inputs allowedKeys i event.workerId event.keyId := by
  have h := genuine_of_execute e
  have connected {i info event} (hc : relay.Cleared crates parsers inputs i info)
      (he : UiEvent.Of info (.workerConnected event)) (hv : event.verified = true) :
      relay.Proven crates parsers inputs allowedKeys i event.workerId event.keyId := by
    obtain he | he | ⟨_, he⟩ := he <;> cases he
    exact hc.proven h.allowed (.inr hv)
  refine ⟨fun hne i event hs workerId hr => ?_, fun i event hs hv => ?_, fun info hl hv => ?_,
    fun u client hu event hs hv => ?_⟩
  · have ⟨info, hc, he⟩ := h.sent i event hs
    have hw : info.workerId = workerId := by
      obtain rfl | rfl | ⟨_, rfl⟩ := he
      · exact hr
      · exact hr.elim
      · exact hr
    exact hw ▸ ⟨info.keyId, hc.proven h.allowed (.inl hne)⟩
  · have ⟨info, hc, he⟩ := h.sent i _ hs
    exact connected hc he hv
  · have ⟨⟨workerId, _⟩, hm, hi⟩ := List.mem_map.mp hl
    subst hi
    have ⟨i, hc⟩ := h.listed workerId _ <| AList.mem_lookup_iff.mpr hm
    exact ⟨i, hc.proven h.allowed (.inr hv)⟩
  · have ⟨i, info, hc, he⟩ := h.shown u client hu _ hs
    exact ⟨i, connected hc he hv⟩

-- A worker that the relay accepts is announced.
theorem execute_register {message : Register} {text : String} {now : Nat}
    (ht : parsers.workerMessage text = some (.register message))
    (hs : (DashboardState.new maxWorkers allowedKeys).registerWorker (message.info now <| isVerified crates nonce message) =
      some state) :
    ∃ relay, Machine.execute (Relay.step crates parsers) (new maxWorkers allowedKeys)
        [.wsWorker i nonce, .recv i now <| some <| .text text, .worker i, .worker i] = some relay ∧
      (i, (message.info now <| isVerified crates nonce message).connected) ∈ relay.state.uiTx := by
  have hw : waitForRegister parsers (some (.text text)) = some (.register message) := ht
  simp [Machine.execute, Relay.step, new, setConnection, Connection.recv, handleRegister, hw, Connection.proceed, hs,
    DashboardState.send]

end

-- A worker that is on the allow-list and answers the challenge of the relay.
namespace KnownWorker

open DefaultId (nonce)

def client : DashboardClient where
  identity := some ReferenceIdentity.identity
  workerId := "worker"
  n        := 25
  strategy := "tabu"
  metadata := none
  apiAddr  := none

def message : Register :=
  client.registerMessage ReferenceIdentity.crates <| some (challenge ReferenceIdentity.crates.hex nonce).nonce

def parsers : Parsers where
  challenge _     := none
  workerMessage _ := some <| .register message

def inputs : List Input :=
  [.wsWorker 0 nonce, .recv 0 0 <| some <| .text "", .worker 0, .worker 0]

def allowedKeys : List String :=
  [message.keyId]

theorem verified : isVerified ReferenceIdentity.crates nonce message = true := by
  have hi : client.identity = some ReferenceIdentity.identity := rfl
  have hk : ReferenceIdentity.identity.keyId = SigningIdentity.computeKeyId ReferenceIdentity.crates
      (ReferenceIdentity.crates.ed25519.verifyingKey ReferenceIdentity.identity.signingKey) := by
    unfold ReferenceIdentity.identity
    rfl
  unfold message
  exact isVerified_answer ReferenceHex.lawful ReferenceIdentity.lawful hi hk nonce

theorem registerWorker : ∃ state, (DashboardState.new 1 allowedKeys).registerWorker
    (message.info 0 <| isVerified ReferenceIdentity.crates nonce message) = some state := by
  have allows : (DashboardState.new 1 allowedKeys).Allows
      (message.info 0 <| isVerified ReferenceIdentity.crates nonce message) := by
    rintro ⟨-, h | h⟩
    · rw [Register.verified_info, verified] at h
      cases h
    · rw [Register.keyId_info] at h
      exact h <| List.mem_singleton.mpr rfl
  exact ⟨_, DashboardState.registerWorker_of_allows allows Nat.zero_lt_one⟩

end KnownWorker

open DefaultId (nonce) in
open KnownWorker in
theorem relays_proven_workers_known :
    ∃ relay keyId, Machine.execute (Relay.step ReferenceIdentity.crates parsers) (new 1 allowedKeys) inputs = some relay ∧
      relay.Proven ReferenceIdentity.crates parsers inputs allowedKeys 0 "worker" keyId := by
  have ⟨state, hs⟩ := registerWorker
  have ⟨relay, e, hm⟩ : ∃ relay,
      Machine.execute (Relay.step ReferenceIdentity.crates parsers) (new 1 allowedKeys) inputs = some relay ∧
        (0, (message.info 0 <| isVerified ReferenceIdentity.crates nonce message).connected) ∈ relay.state.uiTx :=
    execute_register rfl hs
  have ⟨keyId, hp⟩ := (relays_proven_workers e).1 nofun 0 _ hm "worker" rfl
  exact ⟨relay, keyId, e, hp⟩

end Relay
