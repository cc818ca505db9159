import Extremal.Types.Identity
import Extremal.Types.Theorems.Hex

namespace Ed25519

-- The lengths of keys and signatures, and the signatures of a key pair verify.
structure Lawful (ed25519 : Ed25519) : Prop where
  length_verifyingKey : ∀ key, (ed25519.verifyingKey key).length = 32
  isVerifyingKey      : ∀ key, ed25519.isVerifyingKey (ed25519.verifyingKey key) = true
  length_sign         : ∀ key payload, (ed25519.sign key payload).length = 64
  verify_sign         : ∀ key payload, ed25519.verify (ed25519.verifyingKey key) payload (ed25519.sign key payload) = true

-- The signature of a message is valid for no other message.
def Binds (ed25519 : Ed25519) (key payload : List UInt8) : Prop :=
  ∀ other, ed25519.verify (ed25519.verifyingKey key) other (ed25519.sign key payload) = true → other = payload

end Ed25519

namespace SigningIdentity

variable {crates : IdentityCrates} {identity : SigningIdentity}

theorem decodePublicKey_publicKeyHex (hex : crates.hex.Lawful) (lawful : crates.ed25519.Lawful) :
    decodePublicKey crates (identity.publicKeyHex crates) = .ok (crates.ed25519.verifyingKey identity.signingKey) := by
  rw [decodePublicKey, publicKeyHex, hex.decode_encode]
  simp [lawful.length_verifyingKey, lawful.isVerifyingKey]

theorem verifySignature_sign (hex : crates.hex.Lawful) (lawful : crates.ed25519.Lawful) (other payload : List UInt8) :
    verifySignature crates (identity.publicKeyHex crates) other (identity.sign crates payload) =
      .ok (crates.ed25519.verify (crates.ed25519.verifyingKey identity.signingKey) other
        (crates.ed25519.sign identity.signingKey payload)) := by
  rw [verifySignature, decodePublicKey_publicKeyHex hex lawful, sign, hex.decode_encode]
  simp [lawful.length_sign]

end SigningIdentity

-- A scheme whose signatures show short messages. It meets the assumptions on signatures.
namespace ReferenceIdentity

def signature (payload : List UInt8) : List UInt8 :=
  if payload.length < 63 then .ofNat (payload.length + 1) :: payload ++ List.replicate (63 - payload.length) 0
  else List.replicate 64 0

def ed25519 : Ed25519 where
  isVerifyingKey _   := true
  verifyingKey key   := (key ++ List.replicate 32 0).take 32
  sign _             := signature
  verify _ payload s := s = signature payload

def crates : IdentityCrates where
  hex     := ReferenceHex.hex
  blake3  := id
  ed25519 := ed25519

def identity : SigningIdentity where
  keyId      := SigningIdentity.computeKeyId crates <| ed25519.verifyingKey []
  signingKey := []

theorem length_signature (payload : List UInt8) : (signature payload).length = 64 := by
  rw [signature]
  split <;> simp
  omega

theorem lawful : ed25519.Lawful where
  length_verifyingKey key     := by simp [ed25519]
  isVerifyingKey _            := rfl
  length_sign _               := length_signature
  verify_sign _ _             := by simp [ed25519]

theorem binds (key : List UInt8) {payload : List UInt8} (h : payload.length < 63) : ed25519.Binds key payload := by
  intro other hv
  have hs : signature payload = signature other := of_decide_eq_true hv
  rw [signature, signature, if_pos h] at hs
  split at hs
  case isTrue ho =>
    have ⟨hl, hs⟩ := List.cons.inj hs
    have hl := congrArg UInt8.toNat hl
    simp only [UInt8.toNat_ofNat'] at hl
    exact (List.append_inj hs <| by omega).1.symm
  case isFalse =>
    have hl := congrArg UInt8.toNat (List.cons.inj hs).1
    simp only [UInt8.toNat_ofNat', UInt8.toNat_zero] at hl
    omega

end ReferenceIdentity
