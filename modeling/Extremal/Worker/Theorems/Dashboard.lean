import Extremal.Graph.Theorems.RoundTrip
import Extremal.Scoring.Theorems.Nauty
import Extremal.Server.Submit
import Extremal.Types.Theorems.Identity
import Extremal.Worker.Dashboard

open Graph6

-- The bytes of a graph's order in little endian and of a graph6 string of this order.
def MimicsSubmission (bytes : List UInt8) : Prop :=
  ∃ (n : UInt8) (groups : List UInt8), 1 ≤ n ∧ n ≤ 62 ∧ bytes = [n, 0, 0, 0, n + 63] ++ groups ∧
    groups.length = n.toNat * (n.toNat - 1) ⌈/⌉ 12 ∧ ∀ b ∈ groups, 63 ≤ b ∧ b ≤ 126

section Payload

variable {n : Nat} {graph6 bytes : List UInt8}

theorem canonicalPayload_eq (h : n ≤ 62) : canonicalPayload n graph6 = [.ofNat n, 0, 0, 0] ++ graph6 := by
  have h8 : n >>> 8 = 0 := by rw [Nat.shiftRight_eq_div_pow]; omega
  have h16 : n >>> 16 = 0 := by rw [Nat.shiftRight_eq_div_pow]; omega
  have h24 : n >>> 24 = 0 := by rw [Nat.shiftRight_eq_div_pow]; omega
  simp [canonicalPayload, List.range_succ, h8, h16, h24]

theorem decodeRequest_ok_iff :
    (∃ matrix, decodeRequest 62 n graph6 = .ok matrix) ↔ 1 ≤ n ∧ n ≤ 62 ∧ Shaped graph6 ∧ Graph6.orderOf graph6 = n := by
  constructor
  case mp =>
    intro ⟨matrix, e⟩
    rw [decodeRequest] at e
    split_ifs at e with hn
    split at e
    case h_1 => cases e
    case h_2 hd =>
      split_ifs at e with hm
      have hs := shaped_of_decode hd
      rw [decode_shaped hs] at hd
      cases hd
      rw [(cleanOn_fromColumnBits ..).1, not_ne_iff] at hm
      exact ⟨by omega, by omega, hs, hm⟩
  case mpr =>
    intro ⟨h1, h62, hs, ho⟩
    have hm : (fromColumnBits (Graph6.orderOf graph6) (bitsOf graph6)).n = n :=
      (cleanOn_fromColumnBits ..).1.trans ho
    refine ⟨fromColumnBits (Graph6.orderOf graph6) (bitsOf graph6), ?_⟩
    rw [decodeRequest, if_neg (by omega), decode_shaped hs]
    exact if_neg (not_ne_iff.mpr hm)

theorem shaped_cons_iff {first : UInt8} {groups : List UInt8} : Shaped (first :: groups) ↔
    (∀ b ∈ first :: groups, 63 ≤ b ∧ b ≤ 126) ∧ (first - 63).toNat ≤ 62 ∧
    groups.length = (first - 63).toNat * ((first - 63).toNat - 1) ⌈/⌉ 12 := by
  have hl : (AdjacencyMatrix.totalBits (first - 63).toNat + 5) / 6 =
      (first - 63).toNat * ((first - 63).toNat - 1) ⌈/⌉ 12 := by
    have h2 : 2 ∣ (first - 63).toNat * ((first - 63).toNat - 1) := (Nat.even_mul_pred_self _).two_dvd
    rw [AdjacencyMatrix.totalBits_eq, Nat.ceilDiv_eq_add_pred_div]
    omega
  constructor
  case mp =>
    intro ⟨hb, _, ho, hg⟩
    exact ⟨hb, ho, hl ▸ hg⟩
  case mpr =>
    intro ⟨hb, ho, hg⟩
    exact ⟨hb, by simp, ho, hl ▸ hg⟩

theorem mimicsSubmission_iff : MimicsSubmission bytes ↔
    ∃ n graph6, (∃ matrix, decodeRequest 62 n graph6 = .ok matrix) ∧ bytes = canonicalPayload n graph6 := by
  simp only [decodeRequest_ok_iff]
  constructor
  case mp =>
    rintro ⟨n, groups, h1, h62, hb, hl, hg⟩
    rw [UInt8.le_iff_toNat_le] at h1 h62
    have hn : n + 63 - 63 = n := UInt8.add_sub_cancel n 63
    have hs : Shaped ((n + 63) :: groups) := by
      refine shaped_cons_iff.mpr ⟨List.forall_mem_cons.mpr ⟨?_, hg⟩, ?_, ?_⟩
      · simp only [UInt8.le_iff_toNat_le, UInt8.toNat_add]
        simp at h62 ⊢
        omega
      · simpa [hn] using h62
      · rwa [hn]
    refine ⟨n.toNat, (n + 63) :: groups, ⟨h1, h62, hs, ?_⟩, ?_⟩
    · simp [Graph6.orderOf]
    · rw [canonicalPayload_eq h62, hb, UInt8.ofNat_toNat]
      rfl
  case mpr =>
    rintro ⟨n, graph6, ⟨h1, h62, hs, ho⟩, hb⟩
    cases graph6
    case nil => exact absurd rfl hs.nonempty
    case cons first groups =>
      obtain ⟨hr, hn, hg⟩ := shaped_cons_iff.mp hs
      subst ho
      refine ⟨first - 63, groups, ?_, ?_, ?_, hg, (List.forall_mem_cons.mp hr).2⟩
      · exact UInt8.le_iff_toNat_le.mpr h1
      · exact UInt8.le_iff_toNat_le.mpr hn
      · rw [hb, canonicalPayload_eq h62, UInt8.sub_add_cancel, Graph6.orderOf, List.headD_cons, UInt8.ofNat_toNat]
        rfl

-- The relay of the repository sends 32 bytes, and no submission has this length.
theorem not_mimicsSubmission_of_length (h : bytes.length = 32) : ¬MimicsSubmission bytes := by
  intro ⟨n, groups, _, _, hb, hl, _⟩
  have hg : n.toNat * (n.toNat - 1) ⌈/⌉ 12 = 27 := by
    rw [hb] at h
    simp at h
    omega
  rw [Nat.ceilDiv_eq_add_pred_div] at hg
  obtain hn | hn := Nat.lt_or_ge n.toNat 19
  case inl =>
    have : n.toNat * (n.toNat - 1) ≤ 18 * 17 := Nat.mul_le_mul (by omega) (by omega)
    omega
  case inr =>
    have : 19 * 18 ≤ n.toNat * (n.toNat - 1) := Nat.mul_le_mul hn (by omega)
    omega

end Payload

namespace SubmitRequest

variable {state : AppState} {row : Store.Identity} {req : SubmitRequest}

theorem authenticate_iff : req.authenticate state (some row) = .ok () ↔
    state.verifySignature row.publicKey (canonicalPayload req.n req.graph6) req.signature = .ok true := by
  rw [authenticate]
  split <;> simp_all

theorem decodeRequest_of_validate {matrix : AdjacencyMatrix} (h : req.validate state = .ok matrix) :
    decodeRequest state.maxN req.n req.graph6 = .ok matrix := by
  rw [validate] at h
  split_ifs at h
  exact h

theorem validate_of_decodeRequest {matrix : AdjacencyMatrix}
    (h : decodeRequest state.maxN req.n req.graph6 = .ok matrix) (hm : req.metadata = none) :
    req.validate state = .ok matrix := by
  have hn : ¬(req.n = 0 ∨ state.maxN < req.n) := by
    intro hn
    rw [decodeRequest, if_pos hn] at h
    cases h
  rw [validate, if_neg hn, hm, h]
  rfl

end SubmitRequest

namespace DashboardClient

section Statement

variable (crates : IdentityCrates) (parsers : Parsers) (client : DashboardClient) (message : Recv)

-- The client signs no bytes of a request that `submit_graph` accepts.
def Separated : Prop :=
  ∀ nonce, readChallenge parsers message = some nonce →
    ∀ identity bytes, client.signing crates nonce = some (identity, bytes) →
      ∀ n graph6, (∃ matrix, decodeRequest 62 n graph6 = .ok matrix) → bytes ≠ canonicalPayload n graph6

-- `submit_graph` accepts no request with the signature from the client's answer.
def Unusable (state : AppState) (row : Store.Identity) : Prop :=
  ∀ reply, client.answer crates parsers message = some reply →
    ∀ req : SubmitRequest, reply.nonceSignature = some req.signature →
      ¬((∃ matrix, req.validate state = .ok matrix) ∧ req.authenticate state (some row) = .ok ())

-- The nonce of a challenge does not look like a submission in hex.
def HarmlessNonce : Prop :=
  ∀ text challenge bytes, client.identity.isSome → message = .text text → parsers.challenge text = some challenge →
    crates.hex.decode challenge.nonce = some bytes → ¬MimicsSubmission bytes

-- The server knows the public key of an identity, and checks signatures with it.
structure Knows (state : AppState) (row : Store.Identity) (identity : SigningIdentity) : Prop where
  maxN            : state.maxN = 62
  publicKey       : row.publicKey = identity.publicKeyHex crates
  verifySignature : ∀ payload signature, state.verifySignature row.publicKey payload signature = .ok true ↔
    SigningIdentity.verifySignature crates row.publicKey payload signature = .ok true

end Statement

section

variable {crates : IdentityCrates} {parsers : Parsers} {client : DashboardClient} {message : Recv}
  {identity : SigningIdentity} {bytes : List UInt8} {state : AppState} {row : Store.Identity}

theorem signing_iff : (∃ nonce, readChallenge parsers message = some nonce ∧
    client.signing crates nonce = some (identity, bytes)) ↔
    client.identity = some identity ∧ ∃ text challenge, message = .text text ∧
      parsers.challenge text = some challenge ∧ crates.hex.decode challenge.nonce = some bytes := by
  constructor
  case mp =>
    intro ⟨nonce, hn, hs⟩
    cases message <;> simp only [readChallenge, Option.some.injEq, reduceCtorEq] at hn
    case text text =>
      subst hn
      simp only [signing, Option.bind_eq_bind, Option.bind_eq_some_iff, Option.map_eq_some_iff] at hs
      obtain ⟨_, hi, _, ⟨challenge, hc, rfl⟩, _, hb, he⟩ := hs
      cases he
      exact ⟨hi, text, challenge, rfl, hc, hb⟩
  case mpr =>
    intro ⟨hi, text, challenge, hm, hc, hb⟩
    subst hm
    refine ⟨some challenge.nonce, by simp [readChallenge, hc], ?_⟩
    simp [signing, hi, hb]

theorem harmlessNonce_iff : client.HarmlessNonce crates parsers message ↔
    ∀ nonce, readChallenge parsers message = some nonce →
      ∀ identity bytes, client.signing crates nonce = some (identity, bytes) → ¬MimicsSubmission bytes := by
  constructor
  case mp =>
    intro h nonce hn identity bytes hs
    have ⟨hi, text, challenge, hm, hc, hb⟩ := signing_iff.mp ⟨nonce, hn, hs⟩
    exact h text challenge bytes (hi ▸ rfl) hm hc hb
  case mpr =>
    intro h text challenge bytes hi hm hc hb
    have ⟨identity, hi⟩ := Option.isSome_iff_exists.mp hi
    have ⟨nonce, hn, hs⟩ := signing_iff.mpr ⟨hi, text, challenge, hm, hc, hb⟩
    exact h nonce hn identity bytes hs

theorem separated_iff_harmlessNonce :
    client.Separated crates parsers message ↔ client.HarmlessNonce crates parsers message := by
  simp only [Separated, harmlessNonce_iff, mimicsSubmission_iff]
  constructor
  case mp =>
    intro h nonce hn identity bytes hs ⟨n, graph6, hd, hb⟩
    exact h nonce hn identity bytes hs n graph6 hd hb
  case mpr =>
    intro h nonce hn identity bytes hs n graph6 hd hb
    exact h nonce hn identity bytes hs ⟨n, graph6, hd, hb⟩

theorem answer_iff {signature : String} : (∃ reply, client.answer crates parsers message = some reply ∧
    reply.nonceSignature = some signature) ↔ ∃ nonce, readChallenge parsers message = some nonce ∧
    ∃ identity bytes, client.signing crates nonce = some (identity, bytes) ∧ identity.sign crates bytes = signature := by
  simp [answer, registerMessage]

theorem verify_sign_iff (hex : crates.hex.Lawful) (lawful : crates.ed25519.Lawful)
    (binds : crates.ed25519.Binds identity.signingKey bytes) (knows : Knows crates state row identity)
    (payload : List UInt8) :
    state.verifySignature row.publicKey payload (identity.sign crates bytes) = .ok true ↔ payload = bytes := by
  rw [knows.verifySignature, knows.publicKey, SigningIdentity.verifySignature_sign hex lawful, Except.ok.injEq]
  constructor
  case mp  => exact binds payload
  case mpr =>
    rintro rfl
    exact lawful.verify_sign ..

theorem unusable_iff_separated (hex : crates.hex.Lawful) (lawful : crates.ed25519.Lawful)
    (hi : client.identity = some identity) (knows : Knows crates state row identity)
    (binds : ∀ nonce bytes, readChallenge parsers message = some nonce →
      client.signing crates nonce = some (identity, bytes) → crates.ed25519.Binds identity.signingKey bytes) :
    client.Unusable crates parsers message state row ↔ client.Separated crates parsers message := by
  have signer {nonce identity' bytes} (hn : readChallenge parsers message = some nonce)
      (hs : client.signing crates nonce = some (identity', bytes)) : identity' = identity :=
    Option.some.inj <| (signing_iff.mp ⟨nonce, hn, hs⟩).1.symm.trans hi
  constructor
  case mp =>
    intro h nonce hn identity' bytes hs n graph6 hd hb
    obtain rfl := signer hn hs
    have ⟨reply, hr, hg⟩ := answer_iff.mpr ⟨nonce, hn, identity', bytes, hs, rfl⟩
    let req : SubmitRequest :=
      { n, graph6, keyId := reply.keyId, signature := identity'.sign crates bytes, metadata := none }
    refine h reply hr req hg ⟨?_, ?_⟩
    · have ⟨matrix, hd⟩ := hd
      exact ⟨matrix, SubmitRequest.validate_of_decodeRequest (knows.maxN ▸ hd) rfl⟩
    · exact SubmitRequest.authenticate_iff.mpr <|
        verify_sign_iff hex lawful (binds nonce bytes hn hs) knows _ |>.mpr hb.symm
  case mpr =>
    intro h reply hr req hg ⟨⟨matrix, hv⟩, ha⟩
    have ⟨nonce, hn, identity', bytes, hs, he⟩ := answer_iff.mp ⟨reply, hr, hg⟩
    obtain rfl := signer hn hs
    have hv := SubmitRequest.decodeRequest_of_validate hv
    rw [SubmitRequest.authenticate_iff, ← he, verify_sign_iff hex lawful (binds nonce bytes hn hs) knows] at ha
    exact h nonce hn identity' bytes hs req.n req.graph6 ⟨matrix, knows.maxN ▸ hv⟩ ha.symm

end

-- The signatures of a client are of no use for submissions if and only if the nonce of the challenge does
-- not look like one.
theorem separated_iff (crates : IdentityCrates) (parsers : Parsers) (client : DashboardClient) (message : Recv) :
    (client.Separated crates parsers message ↔ client.HarmlessNonce crates parsers message) ∧
    ∀ state row identity, crates.hex.Lawful → crates.ed25519.Lawful → client.identity = some identity →
      Knows crates state row identity →
      (∀ nonce bytes, readChallenge parsers message = some nonce →
        client.signing crates nonce = some (identity, bytes) → crates.ed25519.Binds identity.signingKey bytes) →
      (client.Unusable crates parsers message state row ↔ client.HarmlessNonce crates parsers message) := by
  refine ⟨separated_iff_harmlessNonce, fun state row identity hex lawful hi knows binds => ?_⟩
  rw [unusable_iff_separated hex lawful hi knows binds, separated_iff_harmlessNonce]

-- A client with the reference crates, and a server that knows its key. The nonce of a challenge is its text.
namespace Reference

def parsers : Parsers where
  challenge text  := some { nonce := text }
  workerMessage _ := none

def client : DashboardClient where
  identity := some ReferenceIdentity.identity
  workerId := "worker"
  n        := 1
  strategy := "tabu"
  metadata := none
  apiAddr  := none

def challenge (nonce : List UInt8) : Recv :=
  .text <| ReferenceHex.hex.encode nonce

def row : Store.Identity where
  keyId     := ReferenceIdentity.identity.keyId
  publicKey := ReferenceIdentity.identity.publicKeyHex ReferenceIdentity.crates

def state : AppState where
  lib                 := ReferenceNauty.crates
  hex                 := ReferenceHex.hex
  render _            := ""
  verifySignature publicKey payload signature :=
    (SigningIdentity.verifySignature ReferenceIdentity.crates publicKey payload signature).mapError fun _ => "error"
  sign _              := ""
  serverKeyId         := "server"
  leaderboardCapacity := 100
  maxK                := 5
  maxN                := 62

theorem signing_challenge_iff {nonce bytes : List UInt8} {identity : SigningIdentity} :
    (∃ text, readChallenge parsers (challenge nonce) = some text ∧
      client.signing ReferenceIdentity.crates text = some (identity, bytes)) ↔
    ReferenceIdentity.identity = identity ∧ nonce = bytes := by
  have hd : ReferenceIdentity.crates.hex.decode (ReferenceHex.hex.encode nonce) = some nonce :=
    ReferenceHex.lawful.decode_encode nonce
  simp [signing_iff, client, challenge, parsers, hd]

theorem harmlessNonce_iff_not_mimics {nonce : List UInt8} :
    client.HarmlessNonce ReferenceIdentity.crates parsers (challenge nonce) ↔ ¬MimicsSubmission nonce := by
  have hd : ReferenceIdentity.crates.hex.decode (ReferenceHex.hex.encode nonce) = some nonce :=
    ReferenceHex.lawful.decode_encode nonce
  constructor
  case mp  => exact fun h => h _ { nonce := _ } nonce rfl rfl rfl hd
  case mpr =>
    rintro h _ _ bytes - ⟨⟩ ⟨⟩ hb
    cases hd.symm.trans hb
    exact h

theorem knows : Knows ReferenceIdentity.crates state row ReferenceIdentity.identity where
  maxN      := rfl
  publicKey := rfl
  verifySignature payload signature := by
    show (SigningIdentity.verifySignature ReferenceIdentity.crates row.publicKey payload signature).mapError _ = _ ↔ _
    cases SigningIdentity.verifySignature ReferenceIdentity.crates row.publicKey payload signature <;>
      simp [Except.mapError]

theorem binds {nonce : List UInt8} (h : nonce.length < 63) : ∀ text bytes,
    readChallenge parsers (challenge nonce) = some text →
    client.signing ReferenceIdentity.crates text = some (ReferenceIdentity.identity, bytes) →
    ReferenceIdentity.crates.ed25519.Binds ReferenceIdentity.identity.signingKey bytes := by
  intro text bytes hn hs
  obtain ⟨-, rfl⟩ := signing_challenge_iff.mp ⟨text, hn, hs⟩
  exact ReferenceIdentity.binds _ h

end Reference

open Reference in
theorem separated_iff_zero :
    let message := challenge <| List.replicate 32 0
    client.Separated ReferenceIdentity.crates parsers message ∧
    client.Unusable ReferenceIdentity.crates parsers message state row := by
  have ⟨hs, hu⟩ := separated_iff ReferenceIdentity.crates parsers client <| challenge <| List.replicate 32 0
  have harmless := harmlessNonce_iff_not_mimics.mpr <| not_mimicsSubmission_of_length (List.length_replicate (n := 32) (a := 0))
  refine ⟨hs.mpr harmless, ?_⟩
  refine hu state row ReferenceIdentity.identity ReferenceHex.lawful ReferenceIdentity.lawful rfl knows (binds ?_) |>.mpr harmless
  decide

-- A relay that sends the payload of the graph with one vertex gets a signature for it.
open Reference in
theorem decoy_not_separated :
    let message := challenge <| canonicalPayload 1 (Graph6.encode <| .new 1)
    ¬client.Separated ReferenceIdentity.crates parsers message ∧
    ¬client.Unusable ReferenceIdentity.crates parsers message state row := by
  have mimics : MimicsSubmission <| canonicalPayload 1 (Graph6.encode <| .new 1) :=
    ⟨1, [], by decide, by decide, by decide +kernel, by decide +kernel, by simp⟩
  have hs : ¬client.Separated ReferenceIdentity.crates parsers (challenge <| canonicalPayload 1 (Graph6.encode <| .new 1)) :=
    fun h => harmlessNonce_iff_not_mimics.mp (separated_iff_harmlessNonce.mp h) mimics
  refine ⟨hs, fun h => hs ?_⟩
  exact unusable_iff_separated ReferenceHex.lawful ReferenceIdentity.lawful rfl knows (binds <| by decide +kernel) |>.mp h

end DashboardClient
