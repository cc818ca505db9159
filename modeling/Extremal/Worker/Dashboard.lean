import Extremal.Dashboard.Protocol
import Extremal.Types.Identity

-- The client of the relay in a worker.
structure DashboardClient where
  identity : Option SigningIdentity
  workerId : String
  n        : UInt32
  strategy : String
  metadata : Option Json
  apiAddr  : Option String

namespace DashboardClient

variable (crates : IdentityCrates) (parsers : Parsers) (client : DashboardClient)

-- The nonce of the first message of a relay. The client goes on without one after a text that is not a
-- challenge, and reconnects after anything else.
def readChallenge : Recv → Option (Option String)
  | .text text => some <| parsers.challenge text |>.map (·.nonce)
  | _          => none

-- The identity and the bytes that it signs.
def signing (nonce : Option String) : Option (SigningIdentity × List UInt8) := do
  let identity ← client.identity
  let nonceBytes ← crates.hex.decode (← nonce)
  return (identity, nonceBytes)

def registerMessage (nonce : Option String) : Register where
  keyId          := client.identity.elim "" (·.keyId)
  workerId       := client.workerId
  n              := client.n
  strategy       := client.strategy
  metadata       := client.metadata
  publicKeyHex   := client.signing crates nonce |>.map fun (identity, _) => identity.publicKeyHex crates
  nonceSignature := client.signing crates nonce |>.map fun (identity, bytes) => identity.sign crates bytes
  apiAddr        := client.apiAddr

-- The answer to the first message of a relay.
def answer (message : Recv) : Option Register :=
  readChallenge parsers message |>.map (client.registerMessage crates)

end DashboardClient
