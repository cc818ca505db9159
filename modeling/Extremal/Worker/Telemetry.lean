import Extremal.Lib.BoundedChannel
import Extremal.Worker.Dashboard

-- The task of `run_connection`, which keeps a worker connected with the relay, and the channel on which the handles of
-- the client pass messages to it.

-- The points at which the task waits.
inductive ConnectionStage
  | top
  | connecting
  | challenged
  | registering (message : Register)
  | registered
  | relaying
  | writing (message : WorkerMessage)
  | closing
  | backoff
  | sleeping
  | stopped

namespace ConnectionStage

-- There is a connection with the relay.
def isConnected : ConnectionStage → Bool
  | challenged | registering _ | registered | relaying | writing _ | closing => true
  | top | connecting | backoff | sleeping | stopped                          => false

end ConnectionStage

-- A connection with the relay: what the task reads before it relays, and what it has written.
structure RelaySession where
  challenge : Option Recv
  ack       : Option Recv
  written   : List WorkerMessage

-- The handles of the client pass their messages in two steps: `passing` holds those for which the handle has seen that
-- there is a connection. `sessions` begins with the latest connection, and `sleeps` lists the pauses since then.
structure Telemetry where
  stage     : ConnectionStage
  connected : Bool
  handles   : Bool
  passing   : List WorkerMessage
  messages  : BoundedChannel WorkerMessage 64
  backoffMs : Nat
  sessions  : List RelaySession
  sleeps    : List Nat

inductive TelemetryInput
  | send (message : WorkerMessage)
  | trySend (index : Nat)
  | drop
  | shutdown (signalled : Bool)
  | connect (ok : Bool)
  | read (message : Recv)
  | recv
  | written (ok : Bool)
  | slept

namespace Telemetry

def init : Telemetry where
  stage     := .top
  connected := false
  handles   := true
  passing   := []
  messages  := .new
  backoffMs := 1000
  sessions  := []
  sleeps    := []

variable (crates : IdentityCrates) (parsers : Parsers) (client : DashboardClient) (t : Telemetry)

def goto (stage : ConnectionStage) : Telemetry :=
  { t with stage }

def inSession (f : RelaySession → RelaySession) : Telemetry :=
  { t with sessions := t.sessions.modifyHead f }

def write (message : WorkerMessage) : Telemetry :=
  t.inSession fun session => { session with written := session.written ++ [message] }

-- The handles drop a message if there is no connection, or no room.

def send (message : WorkerMessage) : Telemetry :=
  if t.connected then { t with passing := t.passing ++ [message] } else t

def trySend (index : Nat) : Option Telemetry :=
  t.passing[index]? |>.map fun message =>
    { t with
      passing  := t.passing.eraseIdx index
      messages := t.messages.trySend message |>.getD t.messages }

def openSession : Telemetry :=
  { t with
    connected := true
    backoffMs := 1000
    sessions  := ⟨none, none, []⟩ :: t.sessions
    sleeps    := [] }

-- The task gives up the connection. It connects again at once if the relay has not let it register.
def disconnect (stage : ConnectionStage) : Telemetry :=
  { t with connected := false, stage }

-- The receiver goes with the task.
def stop : Telemetry :=
  { t with messages := t.messages.close, stage := .stopped }

def wake : Telemetry :=
  { t with
    messages  := t.messages.drain
    backoffMs := min (t.backoffMs * 2) 30000
    sleeps    := t.sleeps ++ [t.backoffMs] }

-- What a read yields while the task relays. A ping is answered, and commands are ignored.
def endsRelay : Recv → Bool
  | .close | .closed | .error          => true
  | .text _ | .binary | .ping | .pong => false

def isText : Recv → Bool
  | .text _ => true
  | _       => false

def step (t : Telemetry) (input : TelemetryInput) : Option Telemetry :=
  match t.stage, input with
  | _, .send message => if t.handles then t.send message else none
  | _, .trySend index => t.trySend index
  | _, .drop => if t.passing.isEmpty then some { t with handles := false } else none
  | .top, .shutdown signalled => if signalled then t.stop else t.goto .connecting
  | .connecting, .connect ok => if ok then t.openSession.goto .challenged else t.goto .backoff
  | .challenged, .read message =>
    let t := t.inSession fun session => { session with challenge := message }
    match client.answer crates parsers message with
    | some register => t.goto <| .registering register
    | none          => t.disconnect .top
  | .registering register, .written ok =>
    if ok then t.write (.register register) |>.goto .registered else t.disconnect .top
  | .registered, .read message =>
    let t := t.inSession fun session => { session with ack := message }
    if isText message then t.goto .relaying else t.disconnect .top
  | .relaying, .recv =>
    match t.messages.tryRecv with
    | some (message, messages) => { t with messages }.goto <| .writing message
    | none                     => if t.handles then none else t.disconnect .backoff
  | .writing message, .written ok => if ok then t.write message |>.goto .relaying else t.disconnect .backoff
  | .relaying, .read message => if endsRelay message then t.disconnect .backoff else t
  | .relaying, .shutdown signalled => if signalled then t.goto .closing else t
  | .closing, .written _ => t.disconnect .top |>.stop
  | .backoff, .shutdown signalled => if signalled then t.stop else t.goto .sleeping
  | .sleeping, .slept => t.wake.goto .top
  | _, _ => none

end Telemetry
