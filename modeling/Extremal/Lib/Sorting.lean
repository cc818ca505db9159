import Mathlib.Data.List.Sort

-- Lists sorted by a relation that ranks the elements with a certain property.

namespace Sorting

-- On the elements with the property the relation is a total preorder.
structure Ranks (r : α → α → Prop) (P : α → Prop) : Prop where
  total : ∀ {a b}, P a → P b → r a b ∨ r b a
  trans : ∀ {a b c}, P a → P b → P c → r a b → r b c → r a c

namespace Ranks

variable {r : α → α → Prop} {P : α → Prop} (h : Ranks r P) {l : List α} (hl : ∀ a ∈ l, P a)
include h hl

theorem pairwise_insertionSort [DecidableRel r] : (l.insertionSort r).Pairwise r := by
  let r' (a b : { a // P a }) : Prop := r a b
  have : DecidableRel r' := fun a b => inferInstanceAs (Decidable (r a b))
  have : Std.Total r' := ⟨fun a b => h.total a.2 b.2⟩
  have : IsTrans _ r' := ⟨fun a b c => h.trans a.2 b.2 c.2⟩
  have hs := (l.attachWith P hl).pairwise_insertionSort r'
  have hm := List.map_insertionSort r' r Subtype.val (l.attachWith P hl) fun _ _ _ _ => .rfl
  rw [List.attachWith_map_subtype_val] at hm
  rw [← hm]
  exact hs.map _ fun _ _ => id

-- If a sorted list loses its front, then all that is kept ranks at least as high as what is lost only
-- if all elements rank equal.
theorem drop_ranks_take_iff (hs : l.Pairwise r) {i : Nat} (hi : 0 < i) (hi' : i < l.length) :
    (∀ d ∈ l.take i, ∀ k ∈ l.drop i, r k d) ↔ ∀ a ∈ l, ∀ b ∈ l, r a b := by
  constructor
  case mpr => exact fun he d hd k hk => he k (List.mem_of_mem_drop hk) d (List.mem_of_mem_take hd)
  case mp =>
    intro hk a ha b hb
    have hp := List.pairwise_iff_getElem.mp hs
    have refl {a} (ha : a ∈ l) : r a a := h.total (hl a ha) (hl a ha) |>.elim id id
    have first : l[0] ∈ l := List.getElem_mem ..
    have last : l[l.length - 1] ∈ l := List.getElem_mem ..
    have hlf : r l[l.length - 1] l[0] := by
      refine hk _ ?_ _ ?_
      · exact List.mem_take_iff_getElem.mpr ⟨0, by omega, rfl⟩
      · exact List.mem_drop_iff_getElem.mpr ⟨l.length - 1 - i, by omega, by congr 1; omega⟩
    have hfb : r l[0] b := by
      obtain ⟨j, hj, rfl⟩ := List.mem_iff_getElem.mp hb
      rcases Nat.eq_zero_or_pos j with rfl | hj'
      · exact refl first
      · exact hp 0 j (by omega) hj hj'
    have hal : r a l[l.length - 1] := by
      obtain ⟨j, hj, rfl⟩ := List.mem_iff_getElem.mp ha
      rcases Nat.lt_or_ge j (l.length - 1) with hj' | hj'
      · exact hp j (l.length - 1) hj (by omega) hj'
      · obtain rfl : j = l.length - 1 := by omega
        exact refl last
    exact h.trans (hl a ha) (hl _ last) (hl b hb) hal <| h.trans (hl _ last) (hl _ first) (hl b hb) hlf hfb

end Ranks

section Key

variable [LinearOrder β] {f : α → β} {l : List α} {x : α}

-- The elements before and behind an element whose key is its own.
theorem exists_split (hs : l.Pairwise (f · ≤ f ·)) (hn : l.Nodup) (hx : x ∈ l)
    (hu : ∀ y ∈ l, f y = f x → y = x) :
    ∃ before after, l = before ++ x :: after ∧ (∀ y ∈ before, f y < f x) ∧ ∀ y ∈ after, f x < f y := by
  obtain ⟨before, after, rfl⟩ := List.append_of_mem hx
  have ⟨_, hs', hb⟩ := List.pairwise_append.mp hs
  have ⟨_, hn', hd⟩ := List.nodup_append.mp hn
  refine ⟨before, after, rfl, fun y hy => ?_, fun y hy => ?_⟩
  · exact lt_of_le_of_ne (hb y hy x (.head _)) fun he => hd y hy x (.head _) <| hu y (by simp [hy]) he
  · refine lt_of_le_of_ne (List.rel_of_pairwise_cons hs' hy) fun he => (List.nodup_cons.mp hn').1 ?_
    rwa [← hu y (by simp [hy]) he.symm]

end Key
end Sorting
