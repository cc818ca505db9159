import Extremal.Lib.Upsert
import Extremal.Server.Serve
import Extremal.Types.Identity

-- The registration of keys at a server that handles other requests meanwhile.

structure RegisterKeyRequest where
  publicKey   : String
  displayName : Option String
  githubRepo  : Option String

-- The response to `POST /api/keys`.
structure RegisterKeyResponse where
  keyId       : String
  displayName : Option String
  githubRepo  : Option String
  createdAt   : Nat

namespace Store

-- A row of `identities` with all its columns.
structure IdentityRow extends Identity where
  displayName : Option String
  githubRepo  : Option String
  createdAt   : Nat

namespace IdentityRow

-- `COALESCE(EXCLUDED.display_name, identities.display_name)`, and the same for the repository.
def merge (row new : IdentityRow) : IdentityRow :=
  { row with
    displayName := new.displayName <|> row.displayName
    githubRepo  := new.githubRepo <|> row.githubRepo }

def response (row : IdentityRow) : RegisterKeyResponse where
  keyId       := row.keyId
  displayName := row.displayName
  githubRepo  := row.githubRepo
  createdAt   := row.createdAt

end IdentityRow

-- `ON CONFLICT (key_id) DO UPDATE SET ...`. A new row must not repeat the public key of another one.
def registerIdentity (rows : List IdentityRow) (new : IdentityRow) : Except StoreError (List IdentityRow) :=
  if rows.all (·.keyId ≠ new.keyId) && rows.any (·.publicKey = new.publicKey) then
    .error <| .sqlx "duplicate key value violates unique constraint \"identities_public_key_key\""
  else .ok <| Upsert.upsert (·.keyId) IdentityRow.merge rows new

end Store

-- `describe` is the text of an error.
structure KeySetup where
  crates   : IdentityCrates
  describe : IdentityError → String

-- A turn of one of the other requests, or a registration. Its statement may fail, or its answer may get lost.
inductive KeyTurn (m : Nat)
  | turn (turn : Fin m × Choice)
  | register (req : RegisterKeyRequest) (fault : Fault) (now : Nat)

structure KeyServer (m : Nat) where
  server : Server m
  keys   : List Store.IdentityRow
  log    : List (Except ApiError RegisterKeyResponse)

namespace RegisterKeyRequest

variable (crates : IdentityCrates) (req : RegisterKeyRequest) (now : Nat)

def row : Except IdentityError Store.IdentityRow := do
  let keyId ← SigningIdentity.computeKeyIdFromHex crates req.publicKey
  return {
    keyId       := keyId
    publicKey   := req.publicKey
    displayName := req.displayName
    githubRepo  := req.githubRepo
    createdAt   := now }

end RegisterKeyRequest

namespace KeyServer

variable (s : KeyServer m)

def init (state : AppState) (requests : Fin m → Request) : KeyServer m where
  server := .init state requests ⟨[], [], [], [], []⟩ []
  keys   := []
  log    := []

def setKeys (keys : List Store.IdentityRow) : KeyServer m :=
  let tables := { s.server.shared.tables with identities := keys.map (·.toIdentity) }
  { s with keys, server := { s.server with shared := { s.server.shared with tables } } }

def respond (result : Except ApiError RegisterKeyResponse) : KeyServer m :=
  { s with log := s.log ++ [result] }

-- A statement that fails without a fault does so because of a constraint.
def registerKey (setup : KeySetup) (req : RegisterKeyRequest) (fault : Fault) (now : Nat) : KeyServer m :=
  match req.row setup.crates now with
  | .error e => s.respond <| .error <| .badRequest s!"invalid public key: {setup.describe e}"
  | .ok row  =>
    match Store.registerIdentity s.keys row with
    | .error e => s.respond <| .error <| .store <| fault.error.getD e
    | .ok keys =>
      let s' := if fault.hasEffect then s.setKeys keys else s
      match fault.error, keys.find? (·.keyId = row.keyId) with
      | some e, _       => s'.respond <| .error <| .store e
      | none, some row  => s'.respond <| .ok row.response
      | none, none      => s'.respond <| .error <| .store <| .sqlx "no rows returned"

def step (setup : KeySetup) (s : KeyServer m) : KeyTurn m → Option (KeyServer m)
  | .turn turn               => s.server.step turn |>.map ({ s with server := · })
  | .register req fault now  => s.registerKey setup req fault now

end KeyServer
