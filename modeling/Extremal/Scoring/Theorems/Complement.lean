import Mathlib.SetTheory.Cardinal.Finite
import Extremal.Scoring.Score
import Extremal.Scoring.Theorems.Histogram
import Extremal.Scoring.Theorems.Nauty

open AdjacencyMatrix CliqueCount

namespace ReferenceNauty

-- The reported order is the number of automorphisms.
theorem order_eq_card (m : AdjacencyMatrix) :
    (densenauty m.n (denseGraph m)).2 = Float.ofNat (Nat.card (m.graph ≃g m.graph)) := by
  have hb := isLabelling_best m.n (denseGraph m)
  let labs := (List.range m.n).permutations'.filter
    (relabelled m.n (denseGraph m) · = relabelled m.n (denseGraph m) (best m.n (denseGraph m)))
  have mem {lab} : lab ∈ labs ↔ IsLabelling m.n lab ∧
      relabelled m.n (denseGraph m) lab = relabelled m.n (denseGraph m) (best m.n (denseGraph m)) := by
    simp only [labs, List.mem_filter, List.mem_permutations', decide_eq_true_eq, IsLabelling]
  let lab (e : m.graph ≃g m.graph) : {lab // lab ∈ labs.toFinset} :=
    ⟨(best m.n (denseGraph m)).map (transport e), List.mem_toFinset.mpr <| mem.mpr
      ⟨isLabelling_map_transport e hb, relabelled_map_transport e hb⟩⟩
  have hinj : lab.Injective := fun e e' h => map_transport_inj hb (congrArg Subtype.val h)
  have hsurj : lab.Surjective := by
    rintro ⟨l, hl⟩
    have ⟨hl, hw⟩ := mem.mp <| List.mem_toFinset.mp hl
    have ⟨e, he⟩ := exists_map_transport hb hl hw
    exact ⟨e, Subtype.ext he⟩
  refine congrArg Float.ofNat <| Eq.symm ?_
  rw [Nat.card_congr (.ofBijective lab ⟨hinj, hsurj⟩), Nat.card_eq_fintype_card, Fintype.card_coe,
    List.toFinset_card_of_nodup ((nodup_labellings m.n).filter _)]

end ReferenceNauty

namespace CliqueHistogram

-- The two colours exchanged.
def swap (histogram : CliqueHistogram) : CliqueHistogram where
  tiers := histogram.tiers.map fun tier => { k := tier.k, red := tier.blue, blue := tier.red }
  n     := histogram.n

theorem tier_swap (histogram : CliqueHistogram) (k : Nat) :
    histogram.swap.tier k = (histogram.tier k).map fun tier => { k := tier.k, red := tier.blue, blue := tier.red } :=
  List.find?_map ..

theorem compute_complement (m : AdjacencyMatrix) (maxK : Nat) : compute m.complement maxK = (compute m maxK).swap := by
  have hm : NeighborSet.fromAdj m.complement.complement = .fromAdj m :=
    congrArg NeighborSet.mk m.complement_complement.neighborMasks_eq
  simp only [compute, swap, hm, n_complement, List.rdropWhile, ← List.map_reverse, List.dropWhile_map, List.map_map]
  simp only [Function.comp_def, and_comm]

end CliqueHistogram

theorem goodmanGap_comm (n : Nat) (red blue : UInt64) : goodmanGap n blue red = goodmanGap n red blue := by
  rw [goodmanGap, goodmanGap, UInt64.add_comm]

theorem tierKey_comm (red blue : UInt64) : tierKey blue red = tierKey red blue := by
  rw [tierKey, tierKey]
  grind

-- The automorphisms of a graph are those of its complement.
def complAut (G : SimpleGraph α) : (G ≃g G) ≃ (Gᶜ ≃g Gᶜ) where
  toFun     := complIso
  invFun e  := {
    toEquiv      := e.toEquiv
    map_rel_iff' := fun {u v} => by
      have h : Gᶜ.Adj (e u) (e v) ↔ Gᶜ.Adj u v := e.map_adj_iff
      by_cases he : u = v
      case pos => simp [he]
      case neg => simpa [SimpleGraph.compl_adj, he, not_iff_not] using h }
  left_inv  := fun _ => rfl
  right_inv := fun _ => rfl

theorem card_aut_complement (m : AdjacencyMatrix) :
    Nat.card (m.complement.graph ≃g m.complement.graph) = Nat.card (m.graph ≃g m.graph) := by
  let conj : (m.complement.graph ≃g m.complement.graph) ≃ (m.graphᶜ ≃g m.graphᶜ) := {
    toFun     := fun e => m.complGraphIso.symm.trans <| e.trans m.complGraphIso
    invFun    := fun e => m.complGraphIso.trans <| e.trans m.complGraphIso.symm
    left_inv  := fun e => by ext; simp
    right_inv := fun e => by ext; simp }
  rw [Nat.card_congr conj, Nat.card_congr (complAut m.graph)]

namespace GraphScore

variable {score score' : GraphScore}

theorem tierKeyAt_swap (h : score'.histogram = score.histogram.swap) (k : Nat) :
    score'.tierKeyAt k = score.tierKeyAt k := by
  rw [tierKeyAt, tierKeyAt, h, CliqueHistogram.tier_swap]
  cases score.histogram.tier k
  case none      => rfl
  case some tier => exact tierKey_comm tier.red tier.blue

-- The bytes in front of the CID encode the other components of the score.
theorem exists_toScoreBytes_eq (maxK : Nat) (ht : ∀ k, score'.tierKeyAt k = score.tierKeyAt k)
    (hg : score'.goodmanGap = score.goodmanGap) (ha : score'.autOrder = score.autOrder) :
    ∃ key, score.toScoreBytes maxK = key ++ score.cid.bytes ∧ score'.toScoreBytes maxK = key ++ score'.cid.bytes := by
  refine ⟨_, rfl, ?_⟩
  simp only [toScoreBytes, ht, hg, invAut, ha]

end GraphScore
