import Extremal.Types.Json

-- The `ed25519-dalek` crate on byte strings. `verifyingKey` and `sign` take a secret key first, `verify`
-- a public key.
structure Ed25519 where
  isVerifyingKey : List UInt8 → Bool
  verifyingKey   : List UInt8 → List UInt8
  sign           : List UInt8 → List UInt8 → List UInt8
  verify         : List UInt8 → List UInt8 → List UInt8 → Bool

structure IdentityCrates where
  hex     : Hex
  blake3  : List UInt8 → List UInt8
  ed25519 : Ed25519

inductive IdentityError
  | invalidPublicKey
  | invalidSignature
  | hexDecode
deriving DecidableEq

structure SigningIdentity where
  keyId      : String
  signingKey : List UInt8

namespace SigningIdentity

variable (crates : IdentityCrates)

def publicKeyHex (identity : SigningIdentity) : String :=
  crates.hex.encode <| crates.ed25519.verifyingKey identity.signingKey

def sign (identity : SigningIdentity) (payload : List UInt8) : String :=
  crates.hex.encode <| crates.ed25519.sign identity.signingKey payload

-- The first 16 hex characters of the hash.
def computeKeyId (publicKey : List UInt8) : String :=
  String.ofList <| crates.hex.encode (crates.blake3 publicKey) |>.toList.take 16

def decodePublicKey (publicKeyHex : String) : Except IdentityError (List UInt8) :=
  match crates.hex.decode publicKeyHex with
  | none       => .error .hexDecode
  | some bytes =>
    if bytes.length ≠ 32 ∨ crates.ed25519.isVerifyingKey bytes = false then .error .invalidPublicKey
    else .ok bytes

def computeKeyIdFromHex (publicKeyHex : String) : Except IdentityError String :=
  decodePublicKey crates publicKeyHex |>.map (computeKeyId crates)

def verifySignature (publicKeyHex : String) (payload : List UInt8) (signatureHex : String) :
    Except IdentityError Bool := do
  let publicKey ← decodePublicKey crates publicKeyHex
  match crates.hex.decode signatureHex with
  | none           => .error .hexDecode
  | some signature =>
    if signature.length ≠ 64 then .error .invalidSignature
    else return crates.ed25519.verify publicKey payload signature

end SigningIdentity
