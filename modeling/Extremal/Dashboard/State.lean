import Mathlib.Data.List.AList
import Extremal.Dashboard.Protocol

structure WorkerInfo where
  workerId    : String
  keyId       : String
  n           : UInt32
  strategy    : String
  metadata    : Option Json
  connectedAt : Nat
  verified    : Bool
  apiAddr     : Option String

def WorkerInfo.connected (info : WorkerInfo) : UiEvent :=
  .workerConnected {
    workerId := info.workerId
    keyId    := info.keyId
    n        := info.n
    strategy := info.strategy
    metadata := info.metadata
    verified := info.verified
    apiAddr  := info.apiAddr }

-- `uiTx` holds all events that have been sent on the channel, each with the connection whose task sent it.
structure DashboardState where
  uiTx        : List (Nat × UiEvent)
  workers     : AList fun _ : String => WorkerInfo
  allowedKeys : List String
  maxWorkers  : Nat

namespace DashboardState

def new (maxWorkers : Nat) (allowedKeys : List String) : DashboardState :=
  { uiTx := [], workers := ∅, allowedKeys, maxWorkers }

variable (state : DashboardState)

-- The allow-list does not reject a worker.
def Allows (info : WorkerInfo) : Prop :=
  ¬(state.allowedKeys ≠ [] ∧ (info.verified = false ∨ info.keyId ∉ state.allowedKeys))

instance (info : WorkerInfo) : Decidable (state.Allows info) :=
  inferInstanceAs <| Decidable (¬_)

-- Yields nothing if the worker is rejected.
def registerWorker (info : WorkerInfo) : Option DashboardState :=
  if ¬state.Allows info then none
  else if state.maxWorkers ≤ state.workers.keys.length ∧ info.workerId ∉ state.workers then none
  else some { state with workers := state.workers.insert info.workerId info }

def unregisterWorker (workerId : String) : DashboardState :=
  { state with workers := state.workers.erase workerId }

def listWorkers : List WorkerInfo :=
  state.workers.entries.map (·.2)

def send (connection : Nat) (event : UiEvent) : DashboardState :=
  { state with uiTx := state.uiTx ++ [(connection, event)] }

end DashboardState
