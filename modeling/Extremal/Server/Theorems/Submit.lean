import Extremal.Scoring.Theorems.Automorphism
import Extremal.Scoring.Theorems.Complement
import Extremal.Server.Submit
import Extremal.Types.Theorems.Hex

open AdjacencyMatrix

section Iso

variable {lib : Crates} {m₁ m₂ : AdjacencyMatrix}

theorem scoreGraph_iso (nauty : lib.LawfulNauty) (hn : m₁.n ≤ 62) (e : m₁.graph ≃g m₂.graph) (maxK : Nat) :
    scoreGraph lib m₁ maxK = scoreGraph lib m₂ maxK := by
  have hc : m₁.n = m₂.n := by simpa using Fintype.card_congr e.toEquiv
  simp only [scoreGraph, CliqueHistogram.compute_iso hn e, canonicalForm_eq nauty hn e, hc]

end Iso

section SameEdges

variable {lib : Crates} {m m₁ m₂ : AdjacencyMatrix}

theorem canonicalForm_congr (h : m₁.SameEdges m₂) : canonicalForm lib m₁ = canonicalForm lib m₂ := by
  have hd : denseGraph m₁ = denseGraph m₂ := by
    rw [denseGraph, denseGraph, ← h.n]
    exact List.filter_congr fun p hp => h.edge_of_mem hp
  simp only [canonicalForm, runNauty, hd, ← h.n, h.permuteVertices_eq]

theorem compute_congr (h : m₁.SameEdges m₂) (maxK : Nat) :
    CliqueHistogram.compute m₁ maxK = CliqueHistogram.compute m₂ maxK := by
  simp only [CliqueHistogram.compute, NeighborSet.fromAdj, h.complement_eq, h.neighborMasks_eq, h.n]

-- Scoring does not read the padding bits of a matrix.
theorem scoreGraph_congr (h : m₁.SameEdges m₂) (maxK : Nat) : scoreGraph lib m₁ maxK = scoreGraph lib m₂ maxK := by
  simp only [scoreGraph, compute_congr h, canonicalForm_congr h, h.n]

theorem submitScore_encode {hex : Hex} {maxN maxK : Nat} (hpos : 1 ≤ m.n) (hn : m.n ≤ 62) (hN : m.n ≤ maxN) :
    submitScore lib hex maxN maxK m.n (Graph6.encode m) =
      .ok (hex.encode (scoreGraph lib m maxK).score.cid.bytes, ⟨(scoreGraph lib m maxK).score.toScoreBytes maxK⟩) := by
  have ⟨m', hd, _, hs⟩ := Graph6.decode_encode hn
  have hr : decodeRequest maxN m.n (Graph6.encode m) = .ok m' := by
    rw [decodeRequest, if_neg (by omega), hd]
    exact if_neg (by simp [hs.n])
  simp only [submitScore, hr, ← scoreGraph_congr hs maxK]
  rfl

end SameEdges

-- Scoring does not depend on the labelling of the submitted graph.
theorem scoreGraph_permuteVertices {lib : Crates} (nauty : lib.LawfulNauty) {m : AdjacencyMatrix} (hn : m.n ≤ 62)
    {perm : List Nat} (hp : IsLabelling m.n perm) (maxK : Nat) :
    let scored := scoreGraph lib m maxK
    let scored' := scoreGraph lib (m.permuteVertices perm) maxK
    scored.score.histogram = scored'.score.histogram ∧ scored.score.goodmanGap = scored'.score.goodmanGap ∧
    scored.score.autOrder = scored'.score.autOrder ∧ scored.score.cid = scored'.score.cid ∧
    scored.canonicalGraph6 = scored'.canonicalGraph6 ∧
    scored.score.toScoreBytes maxK = scored'.score.toScoreBytes maxK := by
  simp [scoreGraph_iso nauty hn (permuteIso hp)]

open ReferenceNauty in
theorem scoreGraph_path3 :
    let scored := scoreGraph crates path3 5
    let scored' := scoreGraph crates (path3.permuteVertices [1, 0, 2]) 5
    scored.score.histogram = scored'.score.histogram ∧ scored.score.goodmanGap = scored'.score.goodmanGap ∧
    scored.score.autOrder = scored'.score.autOrder ∧ scored.score.cid = scored'.score.cid ∧
    scored.canonicalGraph6 = scored'.canonicalGraph6 ∧
    scored.score.toScoreBytes 5 = scored'.score.toScoreBytes 5 := by
  have hp : IsLabelling path3.n [1, 0, 2] := by show List.Perm _ _; decide +kernel
  exact scoreGraph_permuteVertices (lawfulNauty _) (by decide) hp 5

section Complement

variable {lib : Crates} {m : AdjacencyMatrix}

theorem goodmanGap_complement (maxK : Nat) :
    (scoreGraph lib m.complement maxK).score.goodmanGap = (scoreGraph lib m maxK).score.goodmanGap := by
  simp only [scoreGraph, CliqueHistogram.compute_complement, CliqueHistogram.tier_swap, n_complement]
  cases (CliqueHistogram.compute m maxK).tier 3
  case none      => rfl
  case some tier => exact goodmanGap_comm m.n tier.red tier.blue

theorem autOrder_complement (order : automorphismGroupOrder lib m.complement = automorphismGroupOrder lib m)
    (maxK : Nat) : (scoreGraph lib m.complement maxK).score.autOrder = (scoreGraph lib m maxK).score.autOrder := by
  by_cases h : m.n = 0
  case pos => simp only [scoreGraph, canonicalForm, n_complement, h, if_true]
  case neg => simpa [scoreGraph, canonicalForm, automorphismGroupOrder, h] using order

end Complement

-- Swapping the colours exchanges the counts of each tier, and changes nothing in the score bytes but the
-- CID. The order of the automorphism group is that of the same group.
theorem scoreGraph_complement (lib : Crates) {m : AdjacencyMatrix}
    (order : automorphismGroupOrder lib m = Float.ofNat (Nat.card (m.graph ≃g m.graph)))
    (order' : automorphismGroupOrder lib m.complement =
      Float.ofNat (Nat.card (m.complement.graph ≃g m.complement.graph))) (maxK : Nat) :
    CliqueHistogram.compute m.complement maxK = (CliqueHistogram.compute m maxK).swap ∧
    (scoreGraph lib m.complement maxK).score.goodmanGap = (scoreGraph lib m maxK).score.goodmanGap ∧
    ∃ key, (scoreGraph lib m maxK).score.toScoreBytes maxK = key ++ (scoreGraph lib m maxK).score.cid.bytes ∧
      (scoreGraph lib m.complement maxK).score.toScoreBytes maxK =
        key ++ (scoreGraph lib m.complement maxK).score.cid.bytes := by
  rw [card_aut_complement, ← order] at order'
  refine ⟨CliqueHistogram.compute_complement m maxK, goodmanGap_complement maxK, ?_⟩
  refine GraphScore.exists_toScoreBytes_eq maxK (GraphScore.tierKeyAt_swap ?_) (goodmanGap_complement maxK)
    (autOrder_complement order' maxK)
  exact CliqueHistogram.compute_complement m maxK

open ReferenceNauty in
theorem scoreGraph_complement_path3 :
    ∃ key, (scoreGraph crates path3 5).score.toScoreBytes 5 = key ++ (scoreGraph crates path3 5).score.cid.bytes ∧
      (scoreGraph crates path3.complement 5).score.toScoreBytes 5 =
        key ++ (scoreGraph crates path3.complement 5).score.cid.bytes :=
  scoreGraph_complement crates (m := path3) (order_eq_card path3) (order_eq_card path3.complement) 5 |>.2.2

-- A server that accepts all signatures.
namespace ReferenceServer

def state (leaderboardCapacity : Int32) : AppState where
  lib                   := ReferenceNauty.crates
  hex                   := ReferenceHex.hex
  render _              := ""
  verifySignature _ _ _ := .ok true
  sign _                := "signature"
  serverKeyId           := "server"
  leaderboardCapacity   := leaderboardCapacity
  maxK                  := 5
  maxN                  := 62

def identities : List Store.Identity :=
  [{ keyId := "key", publicKey := "public key" }]

def submission (graph : AdjacencyMatrix) : SubmitRequest where
  n         := graph.n
  graph6    := Graph6.encode graph
  keyId     := "key"
  signature := "signature"
  metadata  := none

end ReferenceServer
