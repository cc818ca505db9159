import Extremal.Server.Serve
import Extremal.Worker.Client
import Extremal.Worker.Rounds

-- A server together with the workers that synchronize with it, and with all its other clients. A worker sends one
-- request at a time, and goes on once it has an answer or has given up on it.

structure WorkerOptions where
  setup                 : WorkerSetup
  client                : ServerClient
  metadata              : Option Json
  leaderboardSampleSize : UInt32

namespace WorkerInput

-- The inputs that come from the client of the server.
def isReply : WorkerInput → Bool
  | .engine (.threshold _) | .engine (.cids _ _) | .engine (.submit _) | .graphs _ => true
  | _                                                                              => false

end WorkerInput

namespace Worker

variable (crates : IdentityCrates) (options : WorkerOptions) (w : Worker)

-- The request that the engine awaits next. Without an identity it cannot submit.
def request? : Option Request :=
  let n : Int32 := .ofNat w.engine.config.n
  if w.fetching then some <| .graphs n (.ofNat options.leaderboardSampleSize.toNat) 0
  else match w.engine.stage with
    | .threshold                   => some <| .threshold n
    | .cids                        => some <| .cids n w.engine.cidSyncCursor
    | .submitting (discovery :: _) =>
      options.client.submitDiscovery crates options.metadata w.engine discovery |>.toOption.map .submit
    | _                            => none

-- What the client makes of a response, or of none.
def reply? (response : Option Response) (now : Nat) : Option WorkerInput :=
  if w.fetching then match response with
    | none                 => some <| .graphs none
    | some (.graphs items) => some <| .graphs <| items.map (·.graph6)
    | some _               => none
  else match w.engine.stage, response with
    | .threshold, none                       => some <| .engine <| .threshold none
    | .threshold, some (.threshold response) => some <| .engine <| .threshold response
    | .cids, none                            => some <| .engine <| .cids none now
    | .cids, some (.cids cids)               => some <| .engine <| .cids cids now
    | .submitting _, none                    => some <| .engine <| .submit false
    | .submitting _, some (.submitted _)     => some <| .engine <| .submit true
    | _, _                                   => none

end Worker

-- The successful response to a request.
def ServerState.response? (s : ServerState m) (tx : Fin m) : Option Response :=
  s.log.findSome? fun
    | .responded tx' (.ok response) _ => if tx' = tx then some response else none
    | _                               => none

-- A request of a worker, or of any other client.
structure Posted (w : Nat) where
  sender  : Option (Fin w)
  request : Request

structure Network (w m : Nat) where
  workers : Fin w → Worker
  awaits  : Fin w → Option (Fin m)
  posted  : Fin m → Option (Posted w)
  server  : Server m

-- A worker may give up on a request that the server handles nevertheless, and on one that has never reached it.
inductive NetworkInput (w m : Nat)
  | worker (i : Fin w) (input : WorkerInput)
  | post (i : Fin w) (tx : Fin m)
  | other (tx : Fin m) (request : Request)
  | turn (turn : Fin m × Choice)
  | answer (i : Fin w) (now : Nat)
  | fail (i : Fin w) (now : Nat)

namespace Network

variable (crates : IdentityCrates) (options : Fin w → WorkerOptions) (state : AppState) (s : Network w m)

def init (identities : List Store.Identity) : Network w m where
  workers i := .init (options i).setup
  awaits _  := none
  posted _  := none
  server    := { shared := .init ⟨identities, [], [], [], []⟩ [], programs := fun _ => .ret () }

def post (tx : Fin m) (posted : Posted w) : Option (Network w m) :=
  if (s.posted tx).isSome then none
  else some { s with
    posted := Function.update s.posted tx posted
    server := s.server.start tx <| serve state posted.request }

-- The worker takes an input, and it awaits nothing any more.
def tell (i : Fin w) (input : WorkerInput) : Option (Network w m) :=
  (s.workers i).step (options i).setup input |>.map fun worker =>
    { s with workers := Function.update s.workers i worker, awaits := Function.update s.awaits i none }

def step : NetworkInput w m → Option (Network w m)
  | .worker i input => if input.isReply ∨ (s.awaits i).isSome then none else s.tell options i input
  | .post i tx =>
    if (s.awaits i).isSome then none
    else do
      let request ← (s.workers i).request? crates (options i)
      let s ← s.post state tx ⟨i, request⟩
      return { s with awaits := Function.update s.awaits i tx }
  | .other tx request => s.post state tx ⟨none, request⟩
  | .turn turn =>
    if (s.posted turn.1).isSome then s.server.step turn |>.map fun server => { s with server } else none
  | .answer i now => do
    let tx ← s.awaits i
    let response ← s.server.shared.response? tx
    let input ← (s.workers i).reply? (some response) now
    s.tell options i input
  | .fail i now => do
    let input ← (s.workers i).reply? none now
    s.tell options i input

-- The requests that have been posted, and harmless ones in place of the others.
def requests (tx : Fin m) : Request :=
  match s.posted tx with
  | some posted => posted.request
  | none        => .threshold 0

end Network
