import Extremal.Dashboard.Server
import Extremal.Lib.Machine
import Extremal.Types.Theorems.Identity

namespace DashboardState

variable {state state' : DashboardState} {info : WorkerInfo}

theorem registerWorker_eq_some (h : state.registerWorker info = some state') :
    state.Allows info ∧ (info.workerId ∈ state.workers ∨ state.workers.keys.length < state.maxWorkers) ∧
    state' = { state with workers := state.workers.insert info.workerId info } := by
  rw [registerWorker] at h
  split_ifs at h with ha hc
  cases h
  exact ⟨ha, by grind, rfl⟩

theorem registerWorker_of_allows (ha : state.Allows info) (hl : state.workers.keys.length < state.maxWorkers) :
    state.registerWorker info = some { state with workers := state.workers.insert info.workerId info } := by
  rw [registerWorker, if_neg (not_not.mpr ha), if_neg fun h => absurd h.1 (by omega)]

end DashboardState

namespace Relay

section

variable (crates : IdentityCrates) (parsers : Parsers)

-- What the steps of the tasks can do.
inductive Effect (relay : Relay) : Input → Relay → Prop
  | connect (h : relay.connections i = none) :
    Effect relay (.wsWorker i nonce) (relay.setConnection i ⟨nonce, .challenged⟩)
  | answer (h : relay.connections i = some ⟨nonce, .challenged⟩) :
    Effect relay (.recv i now result)
      (relay.setConnection i ⟨nonce, handleRegister crates parsers nonce now result⟩)
  | relay (h : relay.connections i = some ⟨nonce, .relaying info⟩) :
    Effect relay (.recv i now (some result))
      ({ relay with state := (relayMessage parsers info result).2.elim relay.state (relay.state.send i) }.setConnection i
        ⟨nonce, (relayMessage parsers info result).1⟩)
  | reject (h : relay.connections i = some ⟨nonce, .registering info⟩) :
    Effect relay (.worker i) (relay.setConnection i ⟨nonce, .returned⟩)
  | register (h : relay.connections i = some ⟨nonce, .registering info⟩) (ha : relay.state.Allows info)
      (hc : info.workerId ∈ relay.state.workers ∨ relay.state.workers.keys.length < relay.state.maxWorkers) :
    Effect relay (.worker i)
      ({ relay with state := { relay.state with workers := relay.state.workers.insert info.workerId info } }.setConnection
        i ⟨nonce, .registered info⟩)
  | announce (h : relay.connections i = some ⟨nonce, .registered info⟩) :
    Effect relay (.worker i)
      ({ relay with state := relay.state.send i info.connected }.setConnection i ⟨nonce, .relaying info⟩)
  | unregister (h : relay.connections i = some ⟨nonce, .leaving info⟩) :
    Effect relay (.worker i)
      ({ relay with state := relay.state.unregisterWorker info.workerId }.setConnection i ⟨nonce, .unregistered info⟩)
  | dismiss (h : relay.connections i = some ⟨nonce, .unregistered info⟩) :
    Effect relay (.worker i)
      ({ relay with state := relay.state.send i (.workerDisconnected info.workerId) }.setConnection i
        ⟨nonce, .returned⟩)
  | wsUi (h : relay.clients i = none) :
    Effect relay (.wsUi i) (relay.setClient i ⟨.opened, []⟩)
  | ui (h : relay.clients i = some client) (hp : client.proceed relay.state = some client') :
    Effect relay (.ui i) (relay.setClient i client')
  | hangUp (h : relay.clients i = some client) :
    Effect relay (.hangUp i) (relay.setClient i { client with phase := .returned })

variable {crates : IdentityCrates} {parsers : Parsers} {relay relay' : Relay} {input : Input}

theorem step_effect (e : relay.step crates parsers input = some relay') : Effect crates parsers relay input relay' := by
  cases input <;> simp only [step, Option.bind_eq_bind, Option.bind_eq_some_iff, Option.pure_def, Option.some.injEq] at e
  case wsWorker id nonce =>
    split at e
    case h_1 h =>
      cases e
      exact .connect h
    case h_2 => cases e
  case recv id now result =>
    obtain ⟨⟨nonce, phase⟩, hc, ⟨phase', event⟩, hr, rfl⟩ := e
    cases phase <;> simp only [Connection.recv, Option.some.injEq, Prod.mk.injEq, reduceCtorEq] at hr
    case challenged =>
      obtain ⟨rfl, rfl⟩ := hr
      exact .answer hc
    case relaying info =>
      obtain ⟨result, rfl, hm⟩ := Option.map_eq_some_iff.mp hr
      obtain ⟨rfl, rfl⟩ := Prod.ext_iff.mp hm
      exact .relay hc
  case worker id =>
    obtain ⟨⟨nonce, phase⟩, hc, ⟨phase', state⟩, hp, rfl⟩ := e
    cases phase <;> simp only [Connection.proceed, Option.some.injEq, Prod.mk.injEq, reduceCtorEq] at hp
    case registering info =>
      split at hp
      case h_1 =>
        cases hp
        exact .reject hc
      case h_2 he =>
        cases hp
        obtain ⟨ha, hl, rfl⟩ := DashboardState.registerWorker_eq_some he
        exact .register hc ha hl
    case registered =>
      obtain ⟨rfl, rfl⟩ := hp
      exact .announce hc
    case leaving =>
      obtain ⟨rfl, rfl⟩ := hp
      exact .unregister hc
    case unregistered =>
      obtain ⟨rfl, rfl⟩ := hp
      exact .dismiss hc
  case wsUi id =>
    split at e
    case h_1 h =>
      cases e
      exact .wsUi h
    case h_2 => cases e
  case ui id =>
    obtain ⟨client, hc, client', hp, rfl⟩ := e
    exact .ui hc hp
  case hangUp id =>
    obtain ⟨client, hc, rfl⟩ := e
    exact .hangUp hc

end

section Connections

variable {relay : Relay} {state : DashboardState} {connection : Connection} {i j : Nat}

theorem connections_setConnection_self :
    ({ relay with state }.setConnection i connection).connections i = some connection :=
  Function.update_self ..

theorem connections_setConnection_of_ne (h : j ≠ i) :
    ({ relay with state }.setConnection i connection).connections j = relay.connections j :=
  Function.update_of_ne h ..

-- Whatever depends on the phases of the connections changes for one of them.
theorem bind_setConnection (f : WorkerPhase → Option α) :
    (fun j => ({ relay with state }.setConnection i connection).connections j |>.bind (f ·.phase)) =
      Function.update (fun j => relay.connections j |>.bind (f ·.phase)) i (f connection.phase) := by
  funext j
  by_cases h : j = i
  case pos => simp [connections_setConnection_self, h]
  case neg => simp [connections_setConnection_of_ne, h]

end Connections

-- Workers with the default `worker_id`. The text of their first message is their key id.
namespace DefaultId

def parsers : Parsers where
  challenge _        := none
  workerMessage text := some <| .register {
    keyId          := text
    workerId       := "default"
    n              := 25
    strategy       := "tabu"
    metadata       := none
    publicKeyHex   := none
    nonceSignature := none
    apiAddr        := none }

def nonce : Vector UInt8 32 :=
  .replicate 32 0

def register (i : Nat) : List Input :=
  [.wsWorker i nonce, .recv i 0 <| some <| .text "key", .worker i]

def execute (inputs : List Input) : Option Relay :=
  Machine.execute (step ReferenceIdentity.crates parsers) (new 1 []) inputs

end DefaultId

-- Workers that name themselves. The text of their first message is their key id and their `worker_id`.
namespace NamedId

def parsers : Parsers where
  challenge _        := none
  workerMessage text := some <| .register {
    keyId          := text
    workerId       := text
    n              := 25
    strategy       := "tabu"
    metadata       := none
    publicKeyHex   := none
    nonceSignature := none
    apiAddr        := none }

def execute (inputs : List Input) : Option Relay :=
  Machine.execute (step ReferenceIdentity.crates parsers) (new 2 []) inputs

end NamedId
end Relay
