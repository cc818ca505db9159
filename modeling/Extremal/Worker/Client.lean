import Extremal.Server.Submit
import Extremal.Types.Identity
import Extremal.Worker.Engine

-- The client of the server in a worker.
structure ServerClient where
  identity : Option SigningIdentity

-- The error for which no request is posted.
inductive ClientError
  | noIdentity

namespace ServerClient

variable (crates : IdentityCrates) (client : ServerClient)

-- The request that `submit` posts. The graph is signed as it is, in whatever labelling.
def submitRequest (n : Nat) (graph6 : List UInt8) (metadata : Option Json) : Except ClientError SubmitRequest :=
  match client.identity with
  | none          => .error .noIdentity
  | some identity => .ok {
    n         := n
    graph6    := graph6
    keyId     := identity.keyId
    signature := identity.sign crates <| canonicalPayload n graph6
    metadata  := metadata }

-- The request of the engine for a discovery from its batch.
def submitDiscovery (metadata : Option Json) (s : EngineState) (discovery : ScoredDiscovery) :
    Except ClientError SubmitRequest :=
  client.submitRequest crates s.config.n (Graph6.encode discovery.graph) metadata

end ServerClient
