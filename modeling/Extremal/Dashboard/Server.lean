import Mathlib.Logic.Function.Basic
import Extremal.Dashboard.State
import Extremal.Types.Identity

-- The points at which the task of `handle_worker` can be interrupted.
inductive WorkerPhase
  | challenged
  | registering (info : WorkerInfo)
  | registered (info : WorkerInfo)
  | relaying (info : WorkerInfo)
  | leaving (info : WorkerInfo)
  | unregistered (info : WorkerInfo)
  | returned

structure Connection where
  nonce : Vector UInt8 32
  phase : WorkerPhase

def challenge (hex : Hex) (nonce : Vector UInt8 32) : ServerChallenge where
  nonce := hex.encode nonce.toList

section HandleWorker

variable (crates : IdentityCrates) (parsers : Parsers)

def verifyWorkerAuth (claimedKeyId publicKeyHex : String) (nonceBytes : List UInt8) (signatureHex : String) :
    Except IdentityError Bool := do
  let computedKeyId ← SigningIdentity.computeKeyIdFromHex crates publicKeyHex
  if computedKeyId ≠ claimedKeyId then return false
  SigningIdentity.verifySignature crates publicKeyHex nonceBytes signatureHex

def isVerified (nonce : Vector UInt8 32) (message : Register) : Bool :=
  match message.publicKeyHex, message.nonceSignature with
  | some publicKeyHex, some signatureHex =>
    match verifyWorkerAuth crates message.keyId publicKeyHex nonce.toList signatureHex with
    | .ok verified => verified
    | .error _     => false
  | _, _ => false

def Register.info (message : Register) (connectedAt : Nat) (verified : Bool) : WorkerInfo where
  workerId    := message.workerId
  keyId       := message.keyId
  n           := message.n
  strategy    := message.strategy
  metadata    := message.metadata
  connectedAt := connectedAt
  verified    := verified
  apiAddr     := message.apiAddr

-- Nothing arrives if the timeout elapses.
def waitForRegister : Option Recv → Option WorkerMessage
  | some (.text text) => parsers.workerMessage text
  | _                 => none

def handleRegister (nonce : Vector UInt8 32) (now : Nat) (result : Option Recv) : WorkerPhase :=
  match waitForRegister parsers result with
  | some (.register message) => .registering <| message.info now <| isVerified crates nonce message
  | _                        => .returned

-- The loop that relays the messages of a worker.
def relayMessage (info : WorkerInfo) : Recv → WorkerPhase × Option UiEvent
  | .text text               => (.relaying info, parsers.workerMessage text |>.map (.workerEvent info.workerId))
  | .close | .closed | .error => (.leaving info, none)
  | .binary | .ping | .pong  => (.relaying info, none)

namespace Connection

variable (connection : Connection)

def recv (now : Nat) (result : Option Recv) : Option (WorkerPhase × Option UiEvent) :=
  match connection.phase with
  | .challenged    => some (handleRegister crates parsers connection.nonce now result, none)
  | .relaying info => result.map <| relayMessage parsers info
  | _              => none

-- The part of the task between two calls of `recv`. The channel may deliver an event or drop it, if there
-- are no clients.
def proceed (id : Nat) (state : DashboardState) : Option (WorkerPhase × DashboardState) :=
  match connection.phase with
  | .registering info  =>
    match state.registerWorker info with
    | none       => some (.returned, state)
    | some state => some (.registered info, state)
  | .registered info   => some (.relaying info, state.send id info.connected)
  | .leaving info      => some (.unregistered info, state.unregisterWorker info.workerId)
  | .unregistered info => some (.returned, state.send id <| .workerDisconnected info.workerId)
  | _                  => none

end Connection
end HandleWorker

-- The points at which the task of `handle_ui` can be interrupted. `next` is the place of the receiver in the
-- channel.
inductive UiPhase
  | opened
  | listing (pending : List WorkerInfo)
  | relaying (next : Nat)
  | returned

structure UiClient where
  phase : UiPhase
  sent  : List UiEvent

namespace UiClient

-- The capacity of the broadcast channel.
def capacity : Nat :=
  256

variable (client : UiClient) (state : DashboardState)

-- A receiver that lags behind goes on with the oldest event in the channel.
def proceed : Option UiClient :=
  match client.phase with
  | .opened                    => some { client with phase := .listing state.listWorkers }
  | .listing (info :: pending) => some { phase := .listing pending, sent := client.sent ++ [info.connected] }
  | .listing []                => some { client with phase := .relaying state.uiTx.length }
  | .relaying next             =>
    if next + capacity < state.uiTx.length then
      some { client with phase := .relaying <| state.uiTx.length - capacity }
    else
      state.uiTx[next]?.map fun event => { phase := .relaying <| next + 1, sent := client.sent ++ [event.2] }
  | .returned                  => none

end UiClient

-- The relay with the tasks of its connections.
structure Relay where
  state       : DashboardState
  connections : Nat → Option Connection
  clients     : Nat → Option UiClient

namespace Relay

inductive Input
  | wsWorker (id : Nat) (nonce : Vector UInt8 32)
  | recv (id : Nat) (now : Nat) (result : Option Recv)
  | worker (id : Nat)
  | wsUi (id : Nat)
  | ui (id : Nat)
  | hangUp (id : Nat)

def new (maxWorkers : Nat) (allowedKeys : List String) : Relay where
  state         := .new maxWorkers allowedKeys
  connections _ := none
  clients _     := none

variable (crates : IdentityCrates) (parsers : Parsers) (relay : Relay)

def setConnection (id : Nat) (connection : Connection) : Relay :=
  { relay with connections := Function.update relay.connections id connection }

def setClient (id : Nat) (client : UiClient) : Relay :=
  { relay with clients := Function.update relay.clients id client }

-- One step of a task. Each connection and each client gets a fresh number.
def step : Input → Option Relay
  | .wsWorker id nonce     =>
    match relay.connections id with
    | none   => some <| relay.setConnection id { nonce, phase := .challenged }
    | some _ => none
  | .recv id now result    => do
    let connection ← relay.connections id
    let (phase, event) ← connection.recv crates parsers now result
    let state := event.elim relay.state (relay.state.send id)
    return { relay with state }.setConnection id { connection with phase }
  | .worker id             => do
    let connection ← relay.connections id
    let (phase, state) ← connection.proceed id relay.state
    return { relay with state }.setConnection id { connection with phase }
  | .wsUi id               =>
    match relay.clients id with
    | none   => some <| relay.setClient id { phase := .opened, sent := [] }
    | some _ => none
  | .ui id                 => do
    let client ← relay.clients id
    return relay.setClient id (← client.proceed relay.state)
  | .hangUp id             => do
    let client ← relay.clients id
    return relay.setClient id { client with phase := .returned }

end Relay
