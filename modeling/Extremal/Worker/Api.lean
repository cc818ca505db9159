import Mathlib.Logic.Function.Basic
import Extremal.Lib.BoundedChannel
import Extremal.Worker.Engine

-- The HTTP interface of a worker. Each request has a task of its own, which shares a channel of commands with the
-- engine, and a request for an update also waits for a reply of the engine.

inductive ApiCommand
  | pause
  | resume
  | stop
  | updateConfig (patch : List (String × Json))

namespace ApiCommand

def engineCommand : ApiCommand → EngineCommand
  | pause              => .pause
  | resume             => .resume
  | stop               => .stop
  | updateConfig patch => .updateConfig patch

def action : ApiCommand → Option String
  | pause          => "pause"
  | resume         => "resume"
  | stop           => "stop"
  | updateConfig _ => none

end ApiCommand

inductive ApiBody
  | ok (action : String)
  | updated (result : ConfigUpdateResult)
  | error (message : String)

structure ApiResponse where
  status : Nat
  body   : ApiBody

namespace ApiResponse

def ok (action : String) : ApiResponse :=
  { status := 200, body := .ok action }

def updated (result : ConfigUpdateResult) : ApiResponse :=
  { status := 200, body := .updated result }

def notRunning : ApiResponse :=
  { status := 503, body := .error "engine not running" }

def noResponse : ApiResponse :=
  { status := 504, body := .error "engine did not respond" }

end ApiResponse

-- What has become of the channel on which an update waits for its reply.
inductive ApiReply
  | pending
  | sent (result : ConfigUpdateResult)
  | dropped

-- The points at which the task of a request can be interrupted.
inductive ApiTask
  | sending (cmd : ApiCommand)
  | waiting (reply : ApiReply)
  | returned

-- The engine with the tasks of its interface. `updates` holds the replies that the engine has sent, and `responses`
-- those of the interface, each with the number of the request.
structure Api where
  engine    : EngineState
  commands  : BoundedChannel (Nat × ApiCommand) 32
  updates   : List (Nat × ConfigUpdateResult)
  tasks     : Nat → Option ApiTask
  responses : List (Nat × ApiResponse)

inductive ApiInput
  | request (id : Nat) (cmd : ApiCommand)
  | send (id : Nat)
  | reply (id : Nat)
  | hangUp (id : Nat)
  | engine (input : EngineInput)
  | command
  | exit

namespace Api

def init (config : EngineConfig) : Api where
  engine    := .init config
  commands  := .new
  updates   := []
  tasks _   := none
  responses := []

variable (setup : EngineSetup) (api : Api)

def setTask (id : Nat) (task : ApiTask) : Api :=
  { api with tasks := Function.update api.tasks id task }

def respond (id : Nat) (response : ApiResponse) : Api :=
  { api with responses := api.responses ++ [(id, response)] }.setTask id .returned

-- The end of the call of `send`. While the channel is full, the call waits.
def send (id : Nat) (cmd : ApiCommand) : Option Api :=
  if api.commands.isOpen then
    api.commands.trySend (id, cmd) |>.map fun commands =>
      match cmd.action with
      | some action => { api with commands }.respond id <| .ok action
      | none        => { api with commands }.setTask id <| .waiting .pending
  else some <| api.respond id .notRunning

def settle (reply : ApiReply) : ApiTask → ApiTask
  | .waiting .pending => .waiting reply
  | task              => task

-- The engine sends its reply to an update. A task whose client has hung up does not wait any more.
def sendUpdate (id : Nat) (result : ConfigUpdateResult) : Api :=
  { api with
    updates := api.updates ++ [(id, result)]
    tasks   := Function.update api.tasks id <| (api.tasks id).map <| settle <| .sent result }

-- What the engine receives at the two points at which it receives commands.
def receives (cmd : ApiCommand) : Option EngineInput :=
  match api.engine.stage with
  | .drain  => some <| .tryRecv cmd.engineCommand
  | .paused => some <| .recv cmd.engineCommand
  | _       => none

-- The engine handles the next command.
def command : Option Api := do
  let ((id, cmd), commands) ← api.commands.tryRecv
  let engine ← api.engine.step setup (← api.receives cmd)
  let next : Api := { api with engine, commands }
  match cmd with
  | .updateConfig patch =>
    let (_, result) := applyConfigPatch setup.render api.engine.config setup.strategyParams patch (api.engine.round + 1)
    return next.sendUpdate id result
  | _ => return next

-- The commands arrive from the tasks only, and the queue is drained when it is empty.
def admits : EngineInput → Bool
  | .tryRecv none     => api.commands.queue.isEmpty
  | .tryRecv (some _) => false
  | .recv _           => false
  | _                 => true

-- The engine has returned, and the commands that wait go with its end of the channel.
def exit : Api :=
  { api with
    commands := api.commands.close
    tasks    := fun id =>
      if id ∈ api.commands.queue.map (·.1) then (api.tasks id).map <| settle .dropped else api.tasks id }

-- Each request gets a fresh number.
def step : ApiInput → Option Api
  | .request id cmd =>
    match api.tasks id with
    | none   => some <| api.setTask id <| .sending cmd
    | some _ => none
  | .send id        =>
    match api.tasks id with
    | some (.sending cmd) => api.send id cmd
    | _                   => none
  | .reply id       =>
    match api.tasks id with
    | some (.waiting (.sent result)) => some <| api.respond id <| .updated result
    | some (.waiting .dropped)       => some <| api.respond id .noResponse
    | _                              => none
  | .hangUp id      => (api.tasks id).map fun _ => api.setTask id .returned
  | .engine input   =>
    if api.admits input then api.engine.step setup input |>.map fun engine => { api with engine } else none
  | .command        => api.command setup
  | .exit           =>
    match api.engine.stage with
    | .stopped => some api.exit
    | _        => none

end Api
