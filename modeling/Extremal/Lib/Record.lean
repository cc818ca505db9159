import Mathlib.Data.Set.Insert
import Mathlib.Order.Basic

-- Searches that keep the best of the elements that they come across.

namespace Record

variable {α β : Type*} [LinearOrder β] {key : α → β} {s s' : Set α} {b : β} {x : α} {best : Option α}

structure Least (key : α → β) (s : Set α) (x : α) : Prop where
  mem : x ∈ s
  le  : ∀ y ∈ s, key x ≤ key y

-- What is kept is an element with the least key, and nothing if there are no elements.
structure Kept (key : α → β) (s : Set α) (best : Option α) : Prop where
  isSome_iff : best.isSome ↔ s.Nonempty
  least      : ∀ x ∈ best, Least key s x

-- The elements that beat `b`.
def below (key : α → β) (b : β) (s : Set α) : Set α :=
  {x ∈ s | key x < b}

theorem Least.singleton (key : α → β) (x : α) : Least key {x} x where
  mem := rfl
  le  := by simp

theorem setOf_mem_append (l l' : List α) : {x | x ∈ l ++ l'} = {x | x ∈ l} ∪ {x | x ∈ l'} := by
  ext x
  exact List.mem_append

theorem setOf_mem_singleton (x : α) : {y | y ∈ [x]} = {x} := by
  ext y
  exact List.mem_singleton

namespace Kept

theorem empty (key : α → β) : Kept key ∅ none where
  isSome_iff := by simp
  least      := by simp

theorem eq_empty (h : Kept key s none) : s = ∅ :=
  Set.not_nonempty_iff_eq_empty.mp <| by simpa using h.isSome_iff

theorem some (h : Least key s x) : Kept key s (some x) where
  isSome_iff := iff_of_true rfl ⟨x, h.mem⟩
  least      := by simpa using h

theorem start (key : α → β) (x : α) : Kept key (below key (key x) {x}) none := by
  have he : below key (key x) {x} = ∅ := by
    refine Set.eq_empty_iff_forall_notMem.mpr ?_
    rintro _ ⟨rfl, hlt⟩
    exact lt_irrefl _ hlt
  exact he ▸ empty key

section Insert

variable (h : Kept key s best)
include h

-- One more element, which is no better than what is kept.
theorem insert_keep (hx : ∃ y ∈ best, key y ≤ key x) : Kept key (insert x s) best := by
  obtain ⟨y, rfl, hx⟩ := hx
  have hl := h.least y rfl
  refine some ⟨.inr hl.mem, ?_⟩
  rintro z (rfl | hz)
  case inl => exact hx
  case inr => exact hl.le z hz

-- One more element, which is better than all others.
theorem insert_replace (hx : ∀ y ∈ best, key x < key y) : Kept key (insert x s) (Option.some x) := by
  refine some ⟨.inl rfl, ?_⟩
  rintro z (rfl | hz)
  case inl => exact le_rfl
  case inr =>
    cases best
    case none   => simp [h.eq_empty] at hz
    case some y => exact (hx y rfl).le.trans <| (h.least y rfl).le z hz

end Insert

-- The best one that beats `b` is the best one of all.
theorem least_below (h : Kept key (below key b s) best) : ∀ x ∈ best, Least key s x := by
  intro x hx
  have ⟨⟨hm, hb⟩, hl⟩ := h.least x hx
  refine ⟨hm, fun y hy => ?_⟩
  by_cases hy' : key y < b
  case pos => exact hl y ⟨hy, hy'⟩
  case neg => exact hb.le.trans <| not_lt.mp hy'

-- If none of the elements beats `x`, then `x` itself is the best.
theorem getD (h : Kept key (below key (key x) s) best) (hx : x ∈ s) : Least key s (best.getD x) := by
  cases best
  case some y => exact h.least_below y rfl
  case none   =>
    refine ⟨hx, fun y hy => not_lt.mp fun hlt => ?_⟩
    have hm : y ∈ below key (key x) s := ⟨hy, hlt⟩
    simp [h.eq_empty] at hm

section Bound

variable (h : Kept key (below key b s) best)
include h

-- Nothing beats what is kept.
theorem elim_le : ∀ y ∈ s, best.elim b key ≤ key y := by
  intro y hy
  cases best
  case none   => exact not_lt.mp fun hlt => h.eq_empty.subset ⟨hy, hlt⟩
  case some x => exact h.least_below x rfl |>.le y hy

theorem elim_le_bound : best.elim b key ≤ b := by
  cases best
  case none   => exact le_rfl
  case some x => exact (h.least x rfl).mem.2.le

-- More elements, none of which beats what is kept.
theorem union_keep (hs : ∀ y ∈ s', best.elim b key ≤ key y) : Kept key (below key b (s ∪ s')) best := by
  cases best
  case none =>
    have he : below key b (s ∪ s') = ∅ := by
      refine Set.eq_empty_iff_forall_notMem.mpr ?_
      rintro y ⟨hy | hy, hb⟩
      case inl => exact hb.not_ge <| h.elim_le y hy
      case inr => exact hb.not_ge <| hs y hy
    exact he ▸ empty key
  case some x =>
    have ⟨⟨hm, hb⟩, hl⟩ := h.least x rfl
    refine some ⟨⟨.inl hm, hb⟩, ?_⟩
    rintro y ⟨hy | hy, hb⟩
    case inl => exact hl y ⟨hy, hb⟩
    case inr => exact hs y hy

-- More elements, the best of which beats what is kept.
theorem union_replace (hx : Least key s' x) (hlt : key x < best.elim b key) :
    Kept key (below key b (s ∪ s')) (Option.some x) := by
  refine some ⟨⟨.inr hx.mem, hlt.trans_le h.elim_le_bound⟩, ?_⟩
  rintro y ⟨hy | hy, _⟩
  case inl => exact hlt.le.trans <| h.elim_le y hy
  case inr => exact hx.le y hy

end Bound
end Kept
end Record
