import Mathlib.Data.Nat.Choose.Basic
import Extremal.Lib.Goodman
import Extremal.Scoring.Checked
import Extremal.Scoring.Theorems.Clique

open AdjacencyMatrix CliqueCount

theorem choose_three (n : Nat) : n.choose 3 = n * (n - 1) * (n - 2) / 6 := by
  rw [Nat.choose_eq_descFactorial_div_factorial]
  simp [Nat.descFactorial, Nat.factorial_succ]
  ring_nf

-- The formula of the code, without overflow or underflow in its steps.
theorem goodmanMinimum_steps : ∀ n ≤ 62, goodmanMinimum? n = some (goodmanMinimum n) ∧
    (goodmanMinimum n).toNat = n * (n - 1) * (n - 2) / 6 - n * ((n - 1) ^ 2 / 4) / 2 := by
  decide +kernel

theorem toNat_goodmanMinimum {n : Nat} (hn : n ≤ 62) : (goodmanMinimum n).toNat = Goodman.minimum n := by
  rw [Goodman.minimum, choose_three]
  exact (goodmanMinimum_steps n hn).2

section Gap

variable {m : AdjacencyMatrix} (hn : m.n ≤ 62)
include hn

theorem goodmanMinimum_le : (goodmanMinimum m.n).toNat ≤ m.reds 3 + m.blues 3 := by
  have := Goodman.minimum_le m.graph
  rw [Fintype.card_fin] at this
  rwa [toNat_goodmanMinimum hn]

-- The subtraction of the gap is exact.
theorem toNat_goodmanGap : (goodmanGap m.n (.ofNat (m.reds 3)) (.ofNat (m.blues 3))).toNat +
    (goodmanMinimum m.n).toNat = m.reds 3 + m.blues 3 := by
  have hr : m.reds 3 < 2 ^ 62 := card_cliqueFinset_lt hn 3
  have hb : m.blues 3 < 2 ^ 62 := reds_complement (m := m) ▸ card_cliqueFinset_lt (m := m.complement) (by simpa) 3
  have hl := goodmanMinimum_le hn
  have ha : (UInt64.ofNat (m.reds 3) + .ofNat (m.blues 3)).toNat = m.reds 3 + m.blues 3 := by
    rw [← UInt64.ofNat_add]
    exact UInt64.toNat_ofNat_of_lt' (show _ < 2 ^ 64 by omega)
  have hle : goodmanMinimum m.n ≤ .ofNat (m.reds 3) + .ofNat (m.blues 3) := by
    rwa [UInt64.le_iff_toNat_le, ha]
  have hlt : ¬UInt64.ofNat (m.reds 3) + .ofNat (m.blues 3) < goodmanMinimum m.n := by
    rw [UInt64.lt_iff_toNat_lt, ha]
    omega
  simp only [goodmanGap, if_neg hlt]
  rw [UInt64.toNat_sub_of_le _ _ hle, ha]
  omega

end Gap

-- A graph with equal degrees attains the minimum.
theorem exists_goodmanGap_eq_zero {n : Nat} (hn : n ≤ 62) :
    ∃ m : AdjacencyMatrix, m.n = n ∧ goodmanGap n (.ofNat (m.reds 3)) (.ofNat (m.blues 3)) = 0 := by
  have hc : 2 * (n / 2) + n % 2 = n := by omega
  have hb := Goodman.balanced_minimum (m := n / 2) (r := n % 2) (by omega)
  have ⟨m, hm, ⟨e⟩⟩ := exists_graphIso (Goodman.balanced (n / 2) (n % 2))
  rw [Goodman.card_balanced, hc] at hm
  have hr : m.reds 3 = _ := card_cliqueFinset_iso e
  have hbl : m.blues 3 = _ := card_cliqueFinset_iso (complIso e)
  refine ⟨m, hm, UInt64.toNat_inj.mp ?_⟩
  have hg := toNat_goodmanGap (m := m) (by omega)
  rw [toNat_goodmanMinimum (by omega), hm] at hg
  rw [hc] at hb
  rw [UInt64.toNat_zero]
  omega

-- The code computes the exact minimum, so the gap is exact and each order has a graph without one.
theorem goodmanGap_exact {n : Nat} (hn : n ≤ 62) :
    goodmanMinimum? n = some (goodmanMinimum n) ∧
    (∀ m : AdjacencyMatrix, m.n = n →
      (goodmanMinimum n).toNat ≤ m.reds 3 + m.blues 3 ∧
      (goodmanGap n (.ofNat (m.reds 3)) (.ofNat (m.blues 3))).toNat + (goodmanMinimum n).toNat =
        m.reds 3 + m.blues 3) ∧
    ∃ m : AdjacencyMatrix, m.n = n ∧ goodmanGap n (.ofNat (m.reds 3)) (.ofNat (m.blues 3)) = 0 := by
  refine ⟨(goodmanMinimum_steps n hn).1, ?_, exists_goodmanGap_eq_zero hn⟩
  rintro m rfl
  exact ⟨goodmanMinimum_le hn, toNat_goodmanGap hn⟩

theorem goodmanGap_exact_six : goodmanMinimum? 6 = some 2 ∧
    ∃ m : AdjacencyMatrix, m.n = 6 ∧ goodmanGap 6 (.ofNat (m.reds 3)) (.ofNat (m.blues 3)) = 0 :=
  have ⟨h, _, h'⟩ := goodmanGap_exact (n := 6) (by decide)
  ⟨h.trans (by decide +kernel), h'⟩
