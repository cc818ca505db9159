import Mathlib.Data.Finset.Card
import Mathlib.Order.Basic

-- Selections of the `c` least elements of a finite set, for an order given by a key.
--
-- The set grows by one element at a time. Each rule below says how the selection changes when it does.

open Finset

namespace Selection

variable {α β : Type*} [LinearOrder β]

-- `B` consists of the `c` elements of `s` with the least keys, or of all elements if there are fewer.
structure Least (key : α → β) (c : Nat) (s B : Finset α) : Prop where
  subset : B ⊆ s
  card   : #B = min c #s
  lt     : ∀ b ∈ B, ∀ x ∈ s, x ∉ B → key b < key x

namespace Least

variable {key : α → β} {c : Nat} {s B B' : Finset α} {w x : α}

theorem empty : Least key c (∅ : Finset α) ∅ where
  subset := Subset.rfl
  card   := by simp
  lt     := by simp

theorem eq_of_lt (h : Least key c s B) (hB : #B < c) : B = s := by
  have := h.card
  exact eq_of_subset_of_card_le h.subset (by omega)

-- Two selections of the same size cannot each hold an element that the other one lacks.
theorem unique (h : Least key c s B) (h' : Least key c s B') : B = B' := by
  refine eq_of_subset_of_card_le (fun b hb => ?_) (h.card ▸ h'.card.le)
  by_contra hn
  have hs : ¬B' ⊆ B := fun hs => hn <| eq_of_subset_of_card_le hs (h.card ▸ h'.card.ge) ▸ hb
  have ⟨b', hb', hn'⟩ := not_subset.mp hs
  exact lt_asymm (h.lt b hb b' (h'.subset hb') hn') (h'.lt b' hb' b (h.subset hb) hn)

variable [DecidableEq α]

theorem insert_of_mem (h : Least key c s B) (hx : x ∈ s) : Least key c (insert x s) B := by
  rwa [insert_eq_of_mem hx]

theorem insert_below (h : Least key c s B) (hB : #B < c) (hx : x ∉ B) :
    Least key c (insert x s) (insert x B) := by
  have he := h.eq_of_lt hB
  subst he
  refine ⟨Subset.rfl, ?_, fun _ _ y hy hn => absurd hy hn⟩
  rw [card_insert_of_notMem hx]
  omega

theorem insert_skip (h : Least key c s B) (hB : #B = c) (hx : ∀ b ∈ B, key b < key x) :
    Least key c (insert x s) B where
  subset := h.subset.trans <| subset_insert x s
  card   := by
    have := h.card
    have := card_le_card <| subset_insert x s
    omega
  lt b hb y hy hn := by
    rcases mem_insert.mp hy with rfl | hy
    case inl => exact hx b hb
    case inr => exact h.lt b hb y hy hn

-- The element with the greatest key makes room for one with a smaller key.
theorem insert_swap (h : Least key c s B) (hB : #B = c) (hw : w ∈ B) (hx : key x < key w) (hn : x ∉ B)
    (hm : ∀ b ∈ B, b ≠ w → key b < key w) : Least key c (insert x s) (insert x (B.erase w)) where
  subset := insert_subset_insert x <| (erase_subset w B).trans h.subset
  card   := by
    have := h.card
    have := card_pos.mpr ⟨w, hw⟩
    have := card_le_card <| subset_insert x s
    rw [card_insert_of_notMem (mt mem_of_mem_erase hn), card_erase_of_mem hw]
    omega
  lt b hb y hy hy' := by
    have ⟨hyx, hye⟩ := not_or.mp <| mt mem_insert.mpr hy'
    have hs : y ∈ s := (mem_insert.mp hy).resolve_left hyx
    have hb : b = x ∨ b ≠ w ∧ b ∈ B := by simpa using hb
    by_cases hyw : y = w
    case pos =>
      subst hyw
      rcases hb with rfl | ⟨hbw, hb⟩
      case inl => exact hx
      case inr => exact hm b hb hbw
    case neg =>
      have hyB : y ∉ B := fun hyB => hye <| mem_erase.mpr ⟨hyw, hyB⟩
      rcases hb with rfl | ⟨_, hb⟩
      case inl => exact hx.trans <| h.lt w hw y hs hyB
      case inr => exact h.lt b hb y hs hyB

end Least
end Selection
