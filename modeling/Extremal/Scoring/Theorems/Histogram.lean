import Mathlib.Order.Bounds.Basic
import Mathlib.Order.Interval.Set.Defs
import Extremal.Graph.Theorems.Graph6
import Extremal.Scoring.Histogram
import Extremal.Scoring.Theorems.Clique

open AdjacencyMatrix CliqueCount Finset

-- Trimming a list over consecutive numbers cuts it behind the last number that is kept.
theorem rdropWhile_map_range' {f : Nat → α} {p : α → Bool} {a n last : Nat} (ha : a ≤ last) (hlt : last < a + n)
    (hp : p (f last) = false) (h : ∀ k, last < k → k < a + n → p (f k)) :
    ((List.range' a n).map f).rdropWhile p = (List.range' a (last + 1 - a)).map f := by
  induction n
  case zero => omega
  case succ n ih =>
    rw [List.range'_1_concat, List.map_append, List.map_singleton]
    by_cases he : last = a + n
    case pos =>
      rw [List.rdropWhile_concat_neg _ _ _ (by simp [← he, hp]), show last + 1 - a = n + 1 by omega,
        List.range'_1_concat, List.map_append, List.map_singleton]
    case neg =>
      rw [List.rdropWhile_concat_pos _ _ _ (h _ (by omega) (by omega))]
      exact ih (by omega) fun k hk hlt => h k hk (by omega)

namespace CliqueHistogram

section Iso

variable {m₁ m₂ : AdjacencyMatrix} (hn : m₁.n ≤ 62) (e : m₁.graph ≃g m₂.graph)
include hn e

theorem countCliques_iso (k : Nat) :
    countCliques (.fromAdj m₁) k m₁.n = countCliques (.fromAdj m₂) k m₂.n := by
  have hc : m₁.n = m₂.n := by simpa using Fintype.card_congr e.toEquiv
  rw [countCliques_fromAdj (by omega), countCliques_fromAdj (by omega), card_cliqueFinset_iso e]

-- The histogram counts on the given labelling, but does not depend on it.
theorem compute_iso (maxK : Nat) : compute m₁ maxK = compute m₂ maxK := by
  have hc : m₁.n = m₂.n := by simpa using Fintype.card_congr e.toEquiv
  have e' : m₁.complement.graph ≃g m₂.complement.graph :=
    m₁.complGraphIso.trans <| (complIso e).trans m₂.complGraphIso.symm
  have hr (k) := countCliques_iso hn e k
  have hb (k) := countCliques_iso (by simpa) e' k
  simp only [n_complement] at hb
  simp only [compute, hr, hb]
  rw [hc]

end Iso

variable {m : AdjacencyMatrix} {maxK : Nat}

theorem compute_tiers_prefix : (compute m maxK).tiers <+: (List.range' 3 (maxK - 2)).map fun k =>
    { k, red := countCliques (.fromAdj m) k m.n, blue := countCliques (.fromAdj m.complement) k m.n } :=
  List.rdropWhile_prefix ..

theorem compute_increasing : (compute m maxK).tiers.Pairwise (·.k < ·.k) := by
  refine List.Pairwise.sublist compute_tiers_prefix.sublist ?_
  rw [List.pairwise_map]
  exact List.pairwise_lt_range' ..

theorem compute_bounds : ∀ t ∈ (compute m maxK).tiers, 3 ≤ t.k ∧ t.k ≤ maxK := by
  intro t ht
  obtain ⟨k, hk, rfl⟩ := List.mem_map.mp <| compute_tiers_prefix.subset ht
  have := List.mem_range'_1.mp hk
  exact ⟨this.1, show k ≤ maxK by omega⟩

end CliqueHistogram

namespace AdjacencyMatrix

variable {m : AdjacencyMatrix} {k ell : Nat}

-- There is a `k`-clique in the graph or in its complement.
def HasClique (m : AdjacencyMatrix) (k : Nat) : Prop :=
  m.reds k ≠ 0 ∨ m.blues k ≠ 0

theorem HasClique.of_le (hk : k ≤ ell) (h : m.HasClique ell) : m.HasClique k :=
  h.imp (mt <| reds_eq_zero_of_le hk) (mt <| blues_eq_zero_of_le hk)

theorem not_hasClique_iff : ¬m.HasClique k ↔ m.reds k = 0 ∧ m.blues k = 0 := by
  rw [HasClique, not_or, not_not, not_not]

end AdjacencyMatrix

namespace CliqueHistogram

variable {m : AdjacencyMatrix} {maxK : Nat}

-- The tier that holds the counts of the code.
def countedTier (m : AdjacencyMatrix) (k : Nat) : HistogramTier where
  k    := k
  red  := countCliques (.fromAdj m) k m.n
  blue := countCliques (.fromAdj m.complement) k m.n

variable (hn : m.n ≤ 62)
include hn

theorem toNat_red_countedTier (k : Nat) : (countedTier m k).red.toNat = m.reds k :=
  toNat_countCliques hn k

theorem toNat_blue_countedTier (k : Nat) : (countedTier m k).blue.toNat = m.blues k := by
  rw [← reds_complement, reds, ← toNat_countCliques (by simpa), n_complement]
  rfl

theorem countedTier_zero_iff (k : Nat) :
    ((countedTier m k).red = 0 ∧ (countedTier m k).blue = 0) ↔ ¬m.HasClique k := by
  rw [not_hasClique_iff, ← toNat_red_countedTier hn, ← toNat_blue_countedTier hn, ← UInt64.toNat_inj,
    ← UInt64.toNat_inj, UInt64.toNat_zero]

theorem compute_tiers_nil (h : ∀ k, 3 ≤ k → k ≤ maxK → ¬m.HasClique k) : (compute m maxK).tiers = [] := by
  refine List.rdropWhile_eq_nil_iff.mpr fun t ht => ?_
  obtain ⟨k, hk, rfl⟩ := List.mem_map.mp ht
  have := List.mem_range'_1.mp hk
  exact decide_eq_true <| countedTier_zero_iff hn k |>.mpr <| h k (by omega) (by omega)

-- The tiers end at the largest clique.
theorem compute_tiers_eq {top : Nat} (h : IsGreatest {k | 3 ≤ k ∧ k ≤ maxK ∧ m.HasClique k} top) :
    (compute m maxK).tiers = (List.range' 3 (top - 2)).map (countedTier m) := by
  have ⟨⟨h₃, hk, hc⟩, hg⟩ := h
  refine rdropWhile_map_range' (f := countedTier m) h₃ (by omega) ?_ fun k hlt hk => ?_
  · exact decide_eq_false <| countedTier_zero_iff hn top |>.not.mpr <| not_not.mpr hc
  · refine decide_eq_true <| countedTier_zero_iff hn k |>.mpr fun hc => ?_
    exact absurd (hg ⟨by omega, by omega, hc⟩) (by omega)

variable (m maxK) in
theorem compute_tiers_cases :
    ((compute m maxK).tiers = [] ∧ ∀ k, 3 ≤ k → k ≤ maxK → ¬m.HasClique k) ∨
      ∃ top, IsGreatest {k | 3 ≤ k ∧ k ≤ maxK ∧ m.HasClique k} top ∧
        (compute m maxK).tiers = (List.range' 3 (top - 2)).map (countedTier m) := by
  by_cases h : ∃ k, 3 ≤ k ∧ k ≤ maxK ∧ m.HasClique k
  case neg =>
    simp only [not_exists, not_and] at h
    exact .inl ⟨compute_tiers_nil hn h, h⟩
  case pos =>
    have hf : {k | 3 ≤ k ∧ k ≤ maxK ∧ m.HasClique k}.Finite := (Set.finite_Iic maxK).subset fun k hk => hk.2.1
    have ⟨top, hm, hg⟩ := hf.exists_maximal h
    have hg : IsGreatest {k | 3 ≤ k ∧ k ≤ maxK ∧ m.HasClique k} top :=
      ⟨hm, fun k hk => le_of_not_gt fun hlt => absurd (hg hk hlt.le) hlt.not_ge⟩
    exact .inr ⟨top, hg, compute_tiers_eq hn hg⟩

-- A tier is kept exactly if it counts a clique.
theorem mem_tiers_iff {t : HistogramTier} :
    t ∈ (compute m maxK).tiers ↔ 3 ≤ t.k ∧ t.k ≤ maxK ∧ m.HasClique t.k ∧ t = countedTier m t.k := by
  rcases compute_tiers_cases m maxK hn with ⟨he, hz⟩ | ⟨top, ⟨⟨_, hle, hc⟩, hg⟩, he⟩ <;> rw [he]
  case inl =>
    simp only [List.not_mem_nil, false_iff]
    exact fun ⟨h₃, hk, hc, _⟩ => hz t.k h₃ hk hc
  case inr =>
    simp only [List.mem_map, List.mem_range'_1]
    constructor
    case mp =>
      rintro ⟨k, hk, rfl⟩
      exact ⟨hk.1, show k ≤ maxK by omega, hc.of_le (show k ≤ top by omega), rfl⟩
    case mpr =>
      intro ⟨h₃, hk, hc, ht⟩
      have := hg ⟨h₃, hk, hc⟩
      exact ⟨t.k, by omega, ht.symm⟩

theorem tier_eq_none_iff {k : Nat} : (compute m maxK).tier k = none ↔ (3 ≤ k → k ≤ maxK → ¬m.HasClique k) := by
  simp only [tier, List.find?_eq_none, mem_tiers_iff hn, beq_iff_eq]
  constructor
  case mp  => exact fun h h₃ hk hc => h (countedTier m k) ⟨h₃, hk, hc, rfl⟩ rfl
  case mpr =>
    rintro h t ⟨h₃, hk, hc, _⟩ rfl
    exact h h₃ hk hc

theorem tiers_prefix {maxK' : Nat} (hk : maxK ≤ maxK') : (compute m maxK).tiers <+: (compute m maxK').tiers := by
  rcases compute_tiers_cases m maxK hn with ⟨he, _⟩ | ⟨top, ⟨⟨h₃, hle, hc⟩, _⟩, he⟩
  case inl => simp [he]
  case inr =>
    rcases compute_tiers_cases m maxK' hn with ⟨_, hz⟩ | ⟨top', ⟨_, hg⟩, he'⟩
    case inl => exact absurd hc <| hz top h₃ (by omega)
    case inr =>
      have := hg ⟨h₃, by omega, hc⟩
      rw [he, he', show top' - 2 = top - 2 + (top' - top) by omega, ← List.range'_append_1, List.map_append]
      exact List.prefix_append ..

end CliqueHistogram

open CliqueHistogram in
-- The tiers run from 3 to the largest clique of either colour, none of them is empty, and the ones that
-- are missing below the limit are empty.
theorem compute_complete {m : AdjacencyMatrix} (hn : m.n ≤ 62) (maxK : Nat) :
    (∀ top, IsGreatest {k | 3 ≤ k ∧ k ≤ maxK ∧ m.HasClique k} top →
      (compute m maxK).tiers.map (·.k) = List.range' 3 (top - 2)) ∧
    ((∀ k, 3 ≤ k → k ≤ maxK → ¬m.HasClique k) → (compute m maxK).tiers = []) ∧
    (∀ t ∈ (compute m maxK).tiers,
      t.red.toNat = m.reds t.k ∧ t.blue.toNat = m.blues t.k ∧ (t.red ≠ 0 ∨ t.blue ≠ 0)) ∧
    (∀ k, 3 ≤ k → k ≤ maxK → ((compute m maxK).tier k = none ↔ m.reds k = 0 ∧ m.blues k = 0)) ∧
    ∀ maxK', maxK ≤ maxK' → (compute m maxK).tiers <+: (compute m maxK').tiers := by
  refine ⟨fun top h => ?_, compute_tiers_nil hn, fun t ht => ?_, fun k h₃ hk => ?_, fun _ => tiers_prefix hn⟩
  · rw [compute_tiers_eq hn h, List.map_map]
    exact List.map_id _
  · obtain ⟨_, _, hc, he⟩ := mem_tiers_iff hn |>.mp ht
    rw [he]
    refine ⟨toNat_red_countedTier hn t.k, toNat_blue_countedTier hn t.k, ?_⟩
    have := countedTier_zero_iff hn t.k |>.not.mpr (not_not.mpr hc)
    tauto
  · rw [tier_eq_none_iff hn, ← not_hasClique_iff]
    exact ⟨fun h => h h₃ hk, fun h _ _ => h⟩

open CliqueHistogram in
-- Three isolated vertices.
theorem compute_complete_new :
    ((compute (new 3) 5).tier 4 = none ↔ (new 3).reds 4 = 0 ∧ (new 3).blues 4 = 0) ∧
      (compute (new 3) 5).tiers <+: (compute (new 3) 6).tiers :=
  have ⟨_, _, _, h, h'⟩ := compute_complete (m := new 3) (by decide) 5
  ⟨h 4 (by decide) (by decide), h' 6 (by decide)⟩

namespace CliqueHistogram

section Valid

variable {m : AdjacencyMatrix} (hn : m.n ≤ 62) {maxK k ell : Nat}
include hn

theorem isValidRamsey_iff (hk : 3 ≤ k) (hl : 3 ≤ ell) : (compute m maxK).isValidRamsey k ell ↔
    (k ≤ maxK → m.graph.CliqueFree k) ∧ (ell ≤ maxK → m.graphᶜ.CliqueFree ell) := by
  have pos {x : UInt64} : x > 0 ↔ x.toNat ≠ 0 := by
    rw [gt_iff_lt, UInt64.lt_iff_toNat_lt, UInt64.toNat_zero, Nat.pos_iff_ne_zero]
  simp only [isValidRamsey, List.all_eq_true, mem_tiers_iff hn, Bool.and_eq_true, Bool.not_eq_true', Bool.and_eq_false_imp,
    beq_iff_eq, decide_eq_false_iff_not, pos, not_not, ← reds_eq_zero_iff, ← blues_eq_zero_iff]
  constructor
  case mp =>
    intro h
    refine ⟨fun hk' => ?_, fun hl' => ?_⟩ <;> by_contra hc
    · have := (h (countedTier m k) ⟨hk, hk', .inl hc, rfl⟩).1 rfl
      exact hc (toNat_red_countedTier hn k ▸ this)
    · have := (h (countedTier m ell) ⟨hl, hl', .inr hc, rfl⟩).2 rfl
      exact hc (toNat_blue_countedTier hn ell ▸ this)
  case mpr =>
    rintro ⟨hr, hb⟩ t ⟨_, hle, _, he⟩
    rw [he]
    refine ⟨?_, ?_⟩ <;> rintro rfl
    · rw [toNat_red_countedTier hn]; exact hr hle
    · rw [toNat_blue_countedTier hn]; exact hb hle

end Valid
end CliqueHistogram

open CliqueHistogram in
-- The answer is right if every clique in question is counted, and as well if one of them is counted and
-- present.
theorem isValidRamsey_decides_iff {m : AdjacencyMatrix} (hn : m.n ≤ 62) (maxK : Nat) {k ell : Nat} (hk : 3 ≤ k)
    (hl : 3 ≤ ell) :
    ((compute m maxK).isValidRamsey k ell = true ↔ m.graph.CliqueFree k ∧ m.graphᶜ.CliqueFree ell) ↔
      (m.graph.CliqueFree k ∧ m.graphᶜ.CliqueFree ell ∨
        k ≤ maxK ∧ ¬m.graph.CliqueFree k ∨ ell ≤ maxK ∧ ¬m.graphᶜ.CliqueFree ell) := by
  rw [isValidRamsey_iff hn hk hl]
  tauto

-- Four vertices without edges are an independent set that a histogram up to size 4 sees, and one up to
-- size 3 misses.

open CliqueHistogram in
theorem isValidRamsey_decides_iff_new :
    (compute (new 4) 4).isValidRamsey 4 4 = true ↔ (new 4).graph.CliqueFree 4 ∧ (new 4).graphᶜ.CliqueFree 4 := by
  refine isValidRamsey_decides_iff (m := new 4) (by decide) 4 (by decide) (by decide) |>.mpr <| .inr <| .inr ⟨by decide, ?_⟩
  exact blues_eq_zero_iff.not.mp (by decide +kernel)

open CliqueHistogram in
theorem isValidRamsey_misses_new :
    ¬((compute (new 4) 3).isValidRamsey 4 4 = true ↔ (new 4).graph.CliqueFree 4 ∧ (new 4).graphᶜ.CliqueFree 4) := by
  have hb : ¬(new 4).graphᶜ.CliqueFree 4 := blues_eq_zero_iff.not.mp (by decide +kernel)
  exact fun h => hb <| (h.mp <| by decide +kernel).2
