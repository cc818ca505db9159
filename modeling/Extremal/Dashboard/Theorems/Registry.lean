import Extremal.Dashboard.Theorems.Server
import Extremal.Lib.Registry

-- The info of an accepted connection. The connection is open until its task removes the entry.
def WorkerPhase.accepted : WorkerPhase → Option WorkerInfo
  | registered info | relaying info | leaving info => some info
  | _                                              => none

namespace Relay

def accepted (relay : Relay) (i : Nat) : Option WorkerInfo :=
  relay.connections i |>.bind (·.phase.accepted)

-- A worker that is accepted does not use the `worker_id` of another accepted connection.
def Exclusive (relay : Relay) (input : Input) : Prop :=
  ∀ i nonce info, input = .worker i → relay.connections i = some ⟨nonce, .registering info⟩ → relay.state.Allows info →
    ∀ j other, relay.accepted j = some other → other.workerId ≠ info.workerId

structure Mirrored (maxWorkers : Nat) (relay : Relay) : Prop where
  mirrors   : Registry.Mirrors WorkerInfo.workerId relay.state.workers relay.accepted
  limit     : relay.state.maxWorkers = maxWorkers
  length_le : relay.state.workers.keys.length ≤ maxWorkers

section

variable {crates : IdentityCrates} {parsers : Parsers} {relay relay' : Relay} {input : Input} {maxWorkers i : Nat}
  {connection connection' : Connection} {allowedKeys : List String}

theorem accepted_of_connections (h : relay.connections i = some connection) :
    relay.accepted i = connection.phase.accepted := by
  rw [accepted, h]
  rfl

theorem accepted_setConnection :
    (relay.setConnection i connection).accepted = Function.update relay.accepted i connection.phase.accepted :=
  bind_setConnection WorkerPhase.accepted

theorem accepted_move {state : DashboardState} (hc : relay.connections i = some connection)
    (hp : connection'.phase.accepted = connection.phase.accepted) :
    ({ relay with state }.setConnection i connection').accepted = relay.accepted := by
  rw [accepted_setConnection, hp, ← accepted_of_connections hc]
  exact Function.update_eq_self i relay.accepted

theorem accepted_relayMessage (info : WorkerInfo) (result : Recv) :
    (relayMessage parsers info result).1.accepted = some info := by
  cases result <;> rfl

theorem accepted_handleRegister (nonce : Vector UInt8 32) (now : Nat) (result : Option Recv) :
    (handleRegister crates parsers nonce now result).accepted = none := by
  rw [handleRegister]
  split <;> rfl

theorem mirrored_new : (new maxWorkers allowedKeys).Mirrored maxWorkers where
  mirrors   := Registry.mirrors_empty
  limit     := rfl
  length_le := Nat.zero_le _

-- The map and the accepted connections stay as they are.
theorem Mirrored.congr (h : relay.Mirrored maxWorkers) (hw : relay'.state.workers = relay.state.workers)
    (hm : relay'.state.maxWorkers = relay.state.maxWorkers) (ha : relay'.accepted = relay.accepted) :
    relay'.Mirrored maxWorkers where
  mirrors   := by
    rw [hw, ha]
    exact h.mirrors
  limit     := hm.trans h.limit
  length_le := hw ▸ h.length_le

theorem Mirrored.step (h : relay.Mirrored maxWorkers) (hx : relay.Exclusive input)
    (e : relay.step crates parsers input = some relay') : relay'.Mirrored maxWorkers := by
  cases step_effect e
  case connect hc =>
    refine h.congr rfl rfl ?_
    rw [accepted_setConnection]
    refine Function.update_eq_self_iff.mpr ?_
    rw [accepted, hc]
    rfl
  case answer hc =>
    exact h.congr rfl rfl <| accepted_move hc <| accepted_handleRegister ..
  case relay info now result hc =>
    refine h.congr ?_ ?_ <| accepted_move hc <| accepted_relayMessage ..
    · cases (relayMessage parsers info result).2 <;> rfl
    · cases (relayMessage parsers info result).2 <;> rfl
  case reject hc | announce hc | dismiss hc =>
    exact h.congr rfl rfl <| accepted_move hc rfl
  case register i nonce info hc ha hl =>
    have hf := hx i nonce info rfl hc ha
    have hn : info.workerId ∉ relay.state.workers := h.mirrors.not_mem hf
    refine ⟨?_, h.limit, ?_⟩
    · rw [accepted_setConnection]
      exact h.mirrors.insert (accepted_of_connections hc) hf
    · show (relay.state.workers.insert info.workerId info).keys.length ≤ maxWorkers
      rw [AList.keys_insert, List.erase_of_not_mem (mt AList.mem_keys.mpr hn), ← h.limit]
      exact hl.resolve_left hn
  case unregister info hc =>
    refine ⟨?_, h.limit, ?_⟩
    · rw [accepted_setConnection]
      exact h.mirrors.erase <| accepted_of_connections hc
    · show (relay.state.workers.erase info.workerId).keys.length ≤ maxWorkers
      rw [AList.keys_erase]
      exact List.erase_sublist.length_le.trans h.length_le
  case wsUi | ui | hangUp => exact h.congr rfl rfl rfl

-- In runs in which no two accepted connections use one `worker_id` the map and the accepted connections
-- agree, and no more connections are accepted than the relay admits.
theorem registry_mirrors (run : Machine.Run (step crates parsers) Exclusive (new maxWorkers allowedKeys) relay) :
    (∀ i info, relay.accepted i = some info → relay.state.workers.lookup info.workerId = some info) ∧
    (∀ workerId info, relay.state.workers.lookup workerId = some info →
      ∃ i, relay.accepted i = some info ∧ info.workerId = workerId) ∧
    ∀ connections : Finset Nat, (∀ i ∈ connections, ∃ info, relay.accepted i = some info) →
      connections.card ≤ maxWorkers := by
  have h : relay.Mirrored maxWorkers :=
    run.invariant (Mirrored maxWorkers) (fun h hx e => h.step hx e) mirrored_new
  exact ⟨h.mirrors.own, h.mirrors.entry, fun connections hc => (h.mirrors.card_le connections hc).trans h.length_le⟩

theorem exclusive_of_none (h : ∀ j, relay.accepted j = none) : relay.Exclusive input := by
  intro i nonce info _ _ _ j other hj
  cases (h j).symm.trans hj

theorem exclusive_of_ne (h : relay.connections i = some connection)
    (hp : ∀ info, connection.phase ≠ .registering info) : relay.Exclusive (.worker i) := by
  rintro _ nonce info ⟨⟩ hc
  cases h.symm.trans hc
  exact absurd rfl <| hp info

end

namespace DefaultId

-- The second connection takes the entry over, and the first one removes it.
def takeover : List Input :=
  register 0 ++ [.worker 0] ++ register 1 ++ [.worker 1, .recv 0 1 <| some .close, .worker 0]

end DefaultId

namespace NamedId

-- Two workers register at the same time. The first one leaves, and connects again after the cleanup.
def reconnect : List Input := [
  .wsWorker 0 DefaultId.nonce, .wsWorker 1 DefaultId.nonce, .recv 1 0 <| some <| .text "b",
  .recv 0 1 <| some <| .text "a", .worker 0, .worker 1, .worker 0, .recv 0 2 <| some .close,
  .wsWorker 2 DefaultId.nonce, .worker 0, .recv 2 3 <| some <| .text "a", .worker 2 ]

end NamedId

open NamedId in
theorem registry_mirrors_reconnect :
    ∃ relay b a, execute reconnect = some relay ∧
      relay.accepted 0 = none ∧ relay.accepted 1 = some b ∧ relay.accepted 2 = some a ∧
      b.workerId = "b" ∧ a.workerId = "a" ∧ a.connectedAt = 3 ∧
      relay.state.workers.lookup "b" = some b ∧ relay.state.workers.lookup "a" = some a ∧
      ∀ connections : Finset Nat, (∀ i ∈ connections, ∃ info, relay.accepted i = some info) → connections.card ≤ 2 := by
  have ⟨relay, b, a, run, he, hi, hb, ha, hbi, hai, hat⟩ : ∃ relay b a,
      Machine.Run (step ReferenceIdentity.crates parsers) Exclusive (new 2 []) relay ∧ execute reconnect = some relay ∧
      relay.accepted 0 = none ∧ relay.accepted 1 = some b ∧ relay.accepted 2 = some a ∧
      b.workerId = "b" ∧ a.workerId = "a" ∧ a.connectedAt = 3 := by
    refine ⟨_, _, _, ?_, rfl, rfl, rfl, rfl, rfl, rfl, rfl⟩
    refine .cons (i := .wsWorker 0 DefaultId.nonce) nofun rfl ?_
    refine .cons (i := .wsWorker 1 DefaultId.nonce) nofun rfl ?_
    refine .cons (i := .recv 1 0 <| some <| .text "b") nofun rfl ?_
    refine .cons (i := .recv 0 1 <| some <| .text "a") nofun rfl ?_
    refine .cons (i := .worker 0) (exclusive_of_none ?_) rfl ?_
    · rintro (_ | _ | _) <;> rfl
    refine .cons (i := .worker 1) ?_ rfl ?_
    · rintro _ _ _ ⟨⟩ ⟨⟩ - (_ | _ | _) _ ⟨⟩
      decide
    refine .cons (i := .worker 0) (exclusive_of_ne rfl nofun) rfl ?_
    refine .cons (i := .recv 0 2 <| some .close) nofun rfl ?_
    refine .cons (i := .wsWorker 2 DefaultId.nonce) nofun rfl ?_
    refine .cons (i := .worker 0) (exclusive_of_ne rfl nofun) rfl ?_
    refine .cons (i := .recv 2 3 <| some <| .text "a") nofun rfl ?_
    refine .cons (i := .worker 2) ?_ rfl .refl
    rintro _ _ _ ⟨⟩ ⟨⟩ - (_ | _ | _ | _) _ ⟨⟩
    decide
  have ⟨own, _, limit⟩ := registry_mirrors run
  exact ⟨relay, b, a, he, hi, hb, ha, hbi, hai, hat, hbi ▸ own 1 b hb, hai ▸ own 2 a ha, limit⟩

-- The relay accepts two connections, although it admits one. The second one is still open when its entry is
-- removed.
open DefaultId in
theorem takeover_drops_entry :
    (∃ relay, execute (takeover.take 7) = some relay ∧ (relay.accepted 0).isSome ∧ (relay.accepted 1).isSome) ∧
    ∃ relay info, execute takeover = some relay ∧ relay.accepted 1 = some info ∧
      relay.state.workers.lookup info.workerId = none := by
  constructor
  · have h : (execute (takeover.take 7)).any (fun relay => (relay.accepted 0).isSome && (relay.accepted 1).isSome) := by
      decide +kernel
    simpa [Option.any_eq_true] using h
  · have h : (execute takeover).any (fun relay => (relay.accepted 1).any fun info =>
        (relay.state.workers.lookup info.workerId).isNone) := by
      decide +kernel
    simpa [Option.any_eq_true] using h

end Relay
