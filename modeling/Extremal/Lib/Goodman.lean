import Mathlib.Combinatorics.Enumerative.DoubleCounting
import Mathlib.Combinatorics.SimpleGraph.Clique
import Mathlib.Combinatorics.SimpleGraph.Finite
import Mathlib.Data.Fintype.Fin
import Mathlib.Tactic.Linarith
import Mathlib.Tactic.Ring

-- Monochromatic triangles. In a triangle with two colours exactly two vertices have edges of both, so
-- counting these vertices relates the monochromatic triangles to the degrees.

open Finset

namespace Goodman

-- Goodman's minimum for `n` vertices.
def minimum (n : Nat) : Nat :=
  n.choose 3 - n * ((n - 1) ^ 2 / 4) / 2

variable {V : Type} [DecidableEq V] {G : SimpleGraph V} [DecidableRel G.Adj] {s : Finset V} {v x y z : V}

-- A triangle of the graph or of its complement.
def Mono (G : SimpleGraph V) (s : Finset V) : Prop :=
  G.IsNClique 3 s ∨ Gᶜ.IsNClique 3 s

-- The vertex has an edge and a missing edge to `s`.
def SeesBoth (G : SimpleGraph V) (s : Finset V) (v : V) : Prop :=
  ∃ a ∈ s, ∃ b ∈ s, G.Adj v a ∧ Gᶜ.Adj v b

instance : Decidable (SeesBoth G s v) :=
  inferInstanceAs (Decidable (∃ a ∈ s, ∃ b ∈ s, _))

omit [DecidableRel G.Adj] in
theorem seesBoth_iff (hxy : x ≠ y) (hxz : x ≠ z) : SeesBoth G {x, y, z} x ↔ (G.Adj x y ↔ ¬G.Adj x z) := by
  simp [SeesBoth, hxy, hxz]
  tauto

theorem card_seesBoth_of_mono (h : Mono G s) : #{v ∈ s | SeesBoth G s v} = 0 := by
  refine card_eq_zero.mpr <| filter_eq_empty_iff.mpr ?_
  rintro v hv ⟨a, ha, b, hb, h₁, h₂⟩
  rcases h with h | h
  · exact h₂.2 <| h.isClique hv hb h₂.ne
  · exact (h.isClique hv ha h₁.ne).2 h₁

theorem card_seesBoth (hs : #s = 3) (h : ¬Mono G s) : #{v ∈ s | SeesBoth G s v} = 2 := by
  obtain ⟨x, y, z, hxy, hxz, hyz, rfl⟩ := card_eq_three.mp hs
  have hx := seesBoth_iff (G := G) hxy hxz
  have hy := seesBoth_iff (G := G) hxy.symm hyz
  have hz := seesBoth_iff (G := G) hxz.symm hyz.symm
  rw [show ({y, x, z} : Finset V) = {x, y, z} by grind] at hy
  rw [show ({z, x, y} : Finset V) = {x, y, z} by grind] at hz
  simp only [Mono, SimpleGraph.is3Clique_triple_iff, SimpleGraph.compl_adj] at h
  simp only [filter_insert, filter_singleton, hx, hy, hz, G.adj_comm y x, G.adj_comm z x, G.adj_comm z y]
  by_cases h₁ : G.Adj x y <;> by_cases h₂ : G.Adj x z <;> by_cases h₃ : G.Adj y z <;> simp_all

section Count

variable [Fintype V] (G)

-- The triples in which `v` sees both are those of `v`, a neighbour and a vertex that is none.
theorem card_triples (v : V) :
    #{s ∈ powersetCard 3 univ | v ∈ s ∧ SeesBoth G s v} = G.degree v * Gᶜ.degree v := by
  symm
  rw [← SimpleGraph.card_neighborFinset_eq_degree, ← SimpleGraph.card_neighborFinset_eq_degree, ← card_product]
  have adj {p : V × V} (hp : p ∈ G.neighborFinset v ×ˢ Gᶜ.neighborFinset v) : G.Adj v p.1 ∧ Gᶜ.Adj v p.2 := by
    simpa using hp
  have ne {a b : V} (ha : G.Adj v a) (hb : Gᶜ.Adj v b) : a ≠ b := fun he => hb.2 (he ▸ ha)
  have card {a b : V} (ha : G.Adj v a) (hb : Gᶜ.Adj v b) : #{v, a, b} = 3 :=
    card_eq_three.mpr ⟨v, a, b, ha.ne, hb.ne, ne ha hb, rfl⟩
  refine card_bij (fun p _ => {v, p.1, p.2}) ?maps ?inj ?surj
  case maps =>
    intro p hp
    have ⟨ha, hb⟩ := adj hp
    refine mem_filter.mpr ⟨mem_powersetCard_univ.mpr (card ha hb), by simp, ?_⟩
    exact ⟨p.1, by simp, p.2, by simp, ha, hb⟩
  case inj =>
    intro p hp q hq he
    have ⟨ha, hb⟩ := adj hp
    have ⟨ha', hb'⟩ := adj hq
    have h₁ : p.1 ∈ ({v, q.1, q.2} : Finset V) := he ▸ by simp
    have h₂ : p.2 ∈ ({v, q.1, q.2} : Finset V) := he ▸ by simp
    simp only [mem_insert, mem_singleton, ha.ne', hb.ne', ne ha hb', (ne ha' hb).symm, false_or, or_false] at h₁ h₂
    exact Prod.ext h₁ h₂
  case surj =>
    intro s hs
    have ⟨hs, hv, a, ha, b, hb, h₁, h₂⟩ := mem_filter.mp hs
    refine ⟨(a, b), by simpa using ⟨h₁, h₂⟩, ?_⟩
    refine eq_of_subset_of_card_le (by simp [insert_subset_iff, hv, ha, hb]) ?_
    rw [mem_powersetCard_univ.mp hs, card h₁ h₂]

theorem sum_card_seesBoth :
    ∑ s ∈ powersetCard 3 univ, #{v ∈ s | SeesBoth G s v} = ∑ v, G.degree v * Gᶜ.degree v := by
  have := sum_card_bipartiteAbove_eq_sum_card_bipartiteBelow (s := powersetCard 3 univ) (t := univ)
    fun s v => v ∈ s ∧ SeesBoth G s v
  simp only [bipartiteAbove, bipartiteBelow, card_triples] at this
  rw [← this]
  refine sum_congr rfl fun s _ => congrArg card ?_
  ext v
  simp

theorem card_mono [DecidablePred (Mono G)] :
    #{s ∈ powersetCard 3 univ | Mono G s} = #(G.cliqueFinset 3) + #(Gᶜ.cliqueFinset 3) := by
  have hd : Disjoint (G.cliqueFinset 3) (Gᶜ.cliqueFinset 3) := by
    refine disjoint_left.mpr fun s hs hs' => ?_
    have h := (SimpleGraph.mem_cliqueFinset_iff ..).mp hs
    have h' := (SimpleGraph.mem_cliqueFinset_iff ..).mp hs'
    obtain ⟨x, y, z, hxy, _, _, rfl⟩ := card_eq_three.mp h.card_eq
    exact (h'.isClique (by simp) (by simp) hxy).2 <| h.isClique (by simp) (by simp) hxy
  rw [← card_union_of_disjoint hd]
  congr 1
  ext s
  rw [mem_filter, mem_powersetCard_univ, mem_union, SimpleGraph.mem_cliqueFinset_iff, SimpleGraph.mem_cliqueFinset_iff]
  exact ⟨fun h => h.2, fun h => ⟨h.elim (·.card_eq) (·.card_eq), h⟩⟩

-- Goodman's identity.
theorem sum_degree_mul_degree_compl : (∑ v, G.degree v * Gᶜ.degree v) + 2 * (#(G.cliqueFinset 3) + #(Gᶜ.cliqueFinset 3)) =
    2 * (Fintype.card V).choose 3 := by
  classical
  have hs : ∑ s ∈ powersetCard 3 univ, #{v ∈ s | SeesBoth G s v} = #{s ∈ powersetCard 3 (univ : Finset V) | ¬Mono G s} * 2 := by
    rw [← sum_const_nat (m := 2) (f := fun _ => 2) fun _ _ => rfl, sum_filter]
    refine sum_congr rfl fun s hs => ?_
    split
    case isTrue h  => exact card_seesBoth (mem_powersetCard_univ.mp hs) h
    case isFalse h => exact card_seesBoth_of_mono (not_not.mp h)
  have hp := card_filter_add_card_filter_not (s := powersetCard 3 (univ : Finset V)) (Mono G)
  rw [card_powersetCard, card_univ, card_mono] at hp
  rw [← sum_card_seesBoth, hs]
  omega

theorem degree_mul_degree_compl_le (v : V) : G.degree v * Gᶜ.degree v ≤ (Fintype.card V - 1) ^ 2 / 4 := by
  have hd := G.degree_compl v
  have hl := G.degree_lt_card_verts v
  have hs : G.degree v + Gᶜ.degree v = Fintype.card V - 1 := by omega
  rw [Nat.le_div_iff_mul_le (by decide), ← hs]
  have := four_mul_le_sq_add (G.degree v) (Gᶜ.degree v)
  linarith

theorem minimum_le : minimum (Fintype.card V) ≤ #(G.cliqueFinset 3) + #(Gᶜ.cliqueFinset 3) := by
  have hi := sum_degree_mul_degree_compl G
  have hb : ∑ v, G.degree v * Gᶜ.degree v ≤ Fintype.card V * ((Fintype.card V - 1) ^ 2 / 4) :=
    sum_le_card_nsmul univ _ _ fun v _ => degree_mul_degree_compl_le G v
  rw [minimum]
  omega

-- The bound is met if the degrees are as equal as they can be.
theorem eq_minimum (h : Fintype.card V * ((Fintype.card V - 1) ^ 2 / 4) ≤ (∑ v, G.degree v * Gᶜ.degree v) + 1) :
    #(G.cliqueFinset 3) + #(Gᶜ.cliqueFinset 3) = minimum (Fintype.card V) := by
  refine le_antisymm ?_ (minimum_le G)
  have hi := sum_degree_mul_degree_compl G
  rw [minimum]
  omega

end Count

section Balanced

-- Two sides of `m` vertices and `r` further ones. Vertices of different sides are joined, except for the
-- two of the same number if that is below `m / 2`. The further vertices make up for the missing edges.
def balanced (m r : Nat) : SimpleGraph (Fin m × Bool ⊕ Fin r) where
  Adj
    | .inl (i, b), .inl (j, c) => b ≠ c ∧ (i = j → r = 0 ∨ m / 2 ≤ i)
    | .inl (i, _), .inr _      => i < m / 2
    | .inr _,      .inl (j, _) => j < m / 2
    | .inr _,      .inr _      => False
  symm     := ⟨by rintro (⟨i, b⟩ | k) (⟨j, c⟩ | l) <;> simp; grind⟩
  loopless := ⟨by rintro (⟨i, b⟩ | k) <;> simp⟩

instance (m r : Nat) : DecidableRel (balanced m r).Adj
  | .inl (i, b), .inl (j, c) => inferInstanceAs (Decidable (b ≠ c ∧ (i = j → r = 0 ∨ m / 2 ≤ i)))
  | .inl (i, _), .inr _      => inferInstanceAs (Decidable (i < m / 2))
  | .inr _,      .inl (j, _) => inferInstanceAs (Decidable (j < m / 2))
  | .inr _,      .inr _      => inferInstanceAs (Decidable False)

variable {m r : Nat}

theorem degree_eq_sum {V : Type} [Fintype V] (G : SimpleGraph V) [DecidableRel G.Adj] (v : V) :
    G.degree v = ∑ w, if G.Adj v w then 1 else 0 := by
  rw [← G.card_neighborFinset_eq_degree, G.neighborFinset_eq_filter, card_filter]

theorem sum_ite_eq_imp (i : Fin m) (P : Prop) [Decidable P] :
    (∑ j, if i = j → P then 1 else 0) = if P then m else m - 1 := by
  by_cases h : P
  case pos => simp [h]
  case neg =>
    have hm : #{j | i ≠ j} = m - 1 := by rw [filter_ne, card_erase_of_mem (mem_univ i), card_univ, Fintype.card_fin]
    rw [if_neg h, ← hm, card_filter]
    simp only [h, imp_false, ne_eq]

theorem degree_inl (hr : r ≤ 1) (i : Fin m) (b : Bool) : (balanced m r).degree (.inl (i, b)) = m := by
  have hb (j : Fin m) : (∑ c, if (balanced m r).Adj (.inl (i, b)) (.inl (j, c)) then 1 else 0) =
      if i = j → r = 0 ∨ m / 2 ≤ i.val then 1 else 0 := by
    rw [Fintype.sum_bool]
    cases b <;> simp [balanced]
  have hk (k : Fin r) : (balanced m r).Adj (.inl (i, b)) (.inr k) ↔ i.val < m / 2 := .rfl
  have hi := i.isLt
  rw [degree_eq_sum, Fintype.sum_sum_type, Fintype.sum_prod_type]
  simp only [hb, hk, sum_ite_eq_imp, sum_const, card_univ, Fintype.card_fin, smul_eq_mul]
  split <;> split <;> omega

theorem degree_inr (k : Fin r) : (balanced m r).degree (.inr k) = 2 * (m / 2) := by
  have hl (p : Fin m × Bool) : (balanced m r).Adj (.inr k) (.inl p) ↔ p.1.val < m / 2 := .rfl
  have hr (l : Fin r) : ¬(balanced m r).Adj (.inr k) (.inr l) := id
  have hm : (∑ i : Fin m, if i.val < m / 2 then 1 else 0) = m / 2 := by
    rw [← card_filter, Fin.card_filter_val_lt]
    omega
  rw [degree_eq_sum, Fintype.sum_sum_type, Fintype.sum_prod_type]
  simp only [hl, hr, Fintype.sum_bool, sum_add_distrib, hm, if_false, sum_const_zero, Nat.add_zero]
  omega

theorem card_balanced (m r : Nat) : Fintype.card (Fin m × Bool ⊕ Fin r) = 2 * m + r := by
  simp [mul_comm]

theorem balanced_bound (m : Nat) (hr : r ≤ 1) : (2 * m + r) * ((2 * m + r - 1) ^ 2 / 4) ≤
    2 * m * (m * (2 * m + r - 1 - m)) + r * (2 * (m / 2) * (2 * m + r - 1 - 2 * (m / 2))) + 1 := by
  obtain rfl | rfl : r = 0 ∨ r = 1 := by omega
  case inl =>
    cases m
    case zero   => simp
    case succ m =>
      have h : (2 * (m + 1) + 0 - 1) ^ 2 / 4 = m * (m + 1) := by
        rw [show 2 * (m + 1) + 0 - 1 = 2 * m + 1 by omega, show (2 * m + 1) ^ 2 = 4 * (m * (m + 1)) + 1 by ring]
        omega
      rw [h, show 2 * (m + 1) + 0 - 1 - (m + 1) = m by omega]
      linarith
  case inr =>
    have h : (2 * m + 1 - 1) ^ 2 / 4 = m * m := by
      rw [Nat.add_sub_cancel, show (2 * m) ^ 2 = 4 * (m * m) by ring]
      omega
    rw [h, Nat.add_sub_cancel, show 2 * m - m = m by omega]
    obtain ⟨q, rfl | rfl⟩ : ∃ q, m = 2 * q ∨ m = 2 * q + 1 := ⟨m / 2, by omega⟩
    case inl =>
      rw [show 2 * q / 2 = q by omega, show 2 * (2 * q) - 2 * q = 2 * q by omega]
      linarith
    case inr =>
      rw [show (2 * q + 1) / 2 = q by omega, show 2 * (2 * q + 1) - 2 * q = 2 * q + 2 by omega]
      linarith

-- Goodman's bound is attained.
theorem balanced_minimum (hr : r ≤ 1) :
    #((balanced m r).cliqueFinset 3) + #((balanced m r)ᶜ.cliqueFinset 3) = minimum (2 * m + r) := by
  rw [← card_balanced]
  refine eq_minimum _ ?_
  have hc (v) : (balanced m r)ᶜ.degree v = 2 * m + r - 1 - (balanced m r).degree v := by
    rw [SimpleGraph.degree_compl, card_balanced]
  have hp : Fintype.card (Fin m × Bool) = 2 * m := by simp [mul_comm]
  simp only [hc, Fintype.sum_sum_type, degree_inl hr, degree_inr, card_balanced, sum_const, card_univ,
    Fintype.card_fin, hp, smul_eq_mul]
  exact balanced_bound m hr

end Balanced

end Goodman
