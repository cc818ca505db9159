import Mathlib.Combinatorics.SimpleGraph.Maps
import Mathlib.NumberTheory.LegendreSymbol.Basic

-- The graph on the residues modulo a prime `p ≡ 1 (mod 4)` whose edges are the pairs with a nonzero square difference.

open Finset

namespace Paley

variable {p : Nat}

def Residue (x : ZMod p) : Prop :=
  x ≠ 0 ∧ IsSquare x

variable [Fact p.Prime] {x y : ZMod p}

-- Multiplying by a nonzero element that is not a square exchanges squares and nonsquares.
theorem isSquare_mul_iff {a : ZMod p} (ha : ¬IsSquare a) (hx : x ≠ 0) : IsSquare (a * x) ↔ ¬IsSquare x := by
  have ha₀ : a ≠ 0 := fun h => ha (h ▸ IsSquare.zero)
  have hc := quadraticChar_neg_one_iff_not_isSquare.mpr ha
  rw [← quadraticChar_one_iff_isSquare (mul_ne_zero ha₀ hx), map_mul, hc, ← quadraticChar_neg_one_iff_not_isSquare]
  omega

theorem residue_mul {a : ZMod p} (ha : ¬IsSquare a) : Residue (a * x) ↔ x ≠ 0 ∧ ¬IsSquare x := by
  have ha₀ : a ≠ 0 := fun h => ha (h ▸ IsSquare.zero)
  rw [Residue, mul_ne_zero_iff_left ha₀]
  exact and_congr_right (isSquare_mul_iff ha)

variable (hp : p % 4 = 1)
include hp

theorem residue_neg : Residue (-x) ↔ Residue x := by
  have h1 : IsSquare (-1 : ZMod p) := ZMod.exists_sq_eq_neg_one_iff.mpr (by omega)
  have neg {x : ZMod p} (h : IsSquare x) : IsSquare (-x) := neg_one_mul x ▸ h1.mul h
  rw [Residue, Residue, neg_ne_zero]
  exact and_congr_right fun _ => ⟨fun h => neg_neg x ▸ neg h, neg⟩

theorem residue_sub_comm : Residue (x - y) ↔ Residue (y - x) := by
  rw [← neg_sub, residue_neg hp]

theorem exists_nonsquare : ∃ a : ZMod p, ¬IsSquare a := by
  refine FiniteField.exists_nonsquare fun h => ?_
  rw [ZMod.ringChar_zmod_n] at h
  omega

def graph : SimpleGraph (ZMod p) where
  Adj x y  := Residue (x - y)
  symm     := ⟨fun _ _ => (residue_sub_comm hp).mp⟩
  loopless := ⟨fun x h => h.1 (sub_self x)⟩

-- Multiplication by a nonsquare.
theorem nonempty_iso_compl : Nonempty (graph hp ≃g (graph hp)ᶜ) := by
  have ⟨a, ha⟩ := exists_nonsquare hp
  have ha₀ : a ≠ 0 := fun h => ha (h ▸ IsSquare.zero)
  refine ⟨⟨Equiv.mulLeft₀ a ha₀, fun {x y} => ?_⟩⟩
  change (a * x ≠ a * y ∧ ¬Residue (a * x - a * y)) ↔ Residue (x - y)
  rw [← mul_sub, residue_mul ha, ne_eq, mul_right_inj' ha₀, Residue, sub_ne_zero]
  tauto

section Degree

open Classical in
-- Half of the nonzero residues are squares.
theorem card_residues : #{x : ZMod p | Residue x} = (p - 1) / 2 := by
  have ⟨a, ha⟩ := exists_nonsquare hp
  have ha₀ : a ≠ 0 := fun h => ha (h ▸ IsSquare.zero)
  have hr : #{x : ZMod p | Residue x} = #{x : ZMod p | x ≠ 0 ∧ ¬IsSquare x} := by
    refine (card_equiv (Equiv.mulLeft₀ a ha₀) fun x => ?_).symm
    rw [mem_filter_univ, mem_filter_univ]
    exact (residue_mul ha).symm
  have hs : #{x : ZMod p | x ≠ 0} = #{x : ZMod p | Residue x} + #{x : ZMod p | x ≠ 0 ∧ ¬IsSquare x} := by
    rw [← card_filter_add_card_filter_not (s := {x : ZMod p | x ≠ 0}) IsSquare, filter_filter, filter_filter]
    congr 2
    ext x
    simp only [mem_filter, mem_univ, true_and]
    rfl
  have hc : #{x : ZMod p | x ≠ 0} = p - 1 := by
    rw [filter_ne', card_erase_of_mem (mem_univ 0), card_univ, ZMod.card]
  omega

open Classical in
theorem card_neighbors (x : ZMod p) : #{y : ZMod p | Residue (x - y)} = (p - 1) / 2 := by
  rw [← card_residues hp]
  exact card_equiv (Equiv.subLeft x) fun y => by simp

end Degree
end Paley
