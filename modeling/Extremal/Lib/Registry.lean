import Mathlib.Data.Finset.Card
import Mathlib.Data.List.AList
import Mathlib.Logic.Function.Basic

-- Registries in which owners keep an entry under its key.

namespace Registry

variable {ι κ α : Type} [DecidableEq κ] {key : α → κ} {entries : AList fun _ : κ => α} {owner : ι → Option α}

-- Each owner has its own entry, and there are no other entries.
structure Mirrors (key : α → κ) (entries : AList fun _ : κ => α) (owner : ι → Option α) : Prop where
  own       : ∀ i a, owner i = some a → entries.lookup (key a) = some a
  entry     : ∀ k a, entries.lookup k = some a → ∃ i, owner i = some a ∧ key a = k
  exclusive : ∀ i j a b, owner i = some a → owner j = some b → key a = key b → i = j

theorem mirrors_empty : Mirrors key ∅ fun _ : ι => none where
  own       := by simp
  entry     := by simp
  exclusive := by simp

theorem update_eq_some_iff [DecidableEq ι] {i j : ι} {a : α} {x : Option α} :
    Function.update owner i x j = some a ↔ j = i ∧ x = some a ∨ j ≠ i ∧ owner j = some a := by
  by_cases h : j = i
  case pos => simp [h]
  case neg => simp [h]

namespace Mirrors

variable {i : ι} {a : α}

theorem not_mem {k : κ} (h : Mirrors key entries owner) (hf : ∀ i a, owner i = some a → key a ≠ k) :
    k ∉ entries := by
  intro hk
  have ⟨a, ha⟩ := Option.isSome_iff_exists.mp <| AList.lookup_isSome.mpr hk
  have ⟨i, hi, hk⟩ := h.entry k a ha
  exact hf i a hi hk

-- An owner enters under a key that nobody uses.
theorem insert [DecidableEq ι] (h : Mirrors key entries owner) (hi : owner i = none)
    (hf : ∀ j b, owner j = some b → key b ≠ key a) :
    Mirrors key (entries.insert (key a) a) (Function.update owner i (some a)) where
  own j b hj := by
    obtain ⟨-, hb⟩ | ⟨-, hj⟩ := update_eq_some_iff.mp hj
    case inl =>
      cases hb
      exact AList.lookup_insert entries
    case inr =>
      rw [AList.lookup_insert_ne (hf j b hj)]
      exact h.own j b hj
  entry k b hk := by
    by_cases hka : k = key a
    case pos =>
      subst hka
      rw [AList.lookup_insert] at hk
      exact ⟨i, update_eq_some_iff.mpr <| .inl ⟨rfl, hk⟩, by cases hk; rfl⟩
    case neg =>
      rw [AList.lookup_insert_ne hka] at hk
      have ⟨j, hj, hb⟩ := h.entry k b hk
      have hji : j ≠ i := fun hji => by simp [hji, hi] at hj
      exact ⟨j, update_eq_some_iff.mpr <| .inr ⟨hji, hj⟩, hb⟩
  exclusive j j' b b' hj hj' hb := by
    obtain ⟨hji, e⟩ | ⟨-, ho⟩ := update_eq_some_iff.mp hj <;> obtain ⟨hji', e'⟩ | ⟨-, ho'⟩ := update_eq_some_iff.mp hj'
    case inl.inl => rw [hji, hji']
    case inl.inr =>
      cases e
      exact absurd hb.symm <| hf j' b' ho'
    case inr.inl =>
      cases e'
      exact absurd hb <| hf j b ho
    case inr.inr => exact h.exclusive j j' b b' ho ho' hb

-- An owner leaves and removes its entry.
theorem erase [DecidableEq ι] (h : Mirrors key entries owner) (hi : owner i = some a) :
    Mirrors key (entries.erase (key a)) (Function.update owner i none) where
  own j b hj := by
    obtain ⟨-, e⟩ | ⟨hji, hj⟩ := update_eq_some_iff.mp hj
    case inl => cases e
    case inr =>
      have hb : key b ≠ key a := fun hb => hji <| h.exclusive j i b a hj hi hb
      rw [AList.lookup_erase_ne hb]
      exact h.own j b hj
  entry k b hk := by
    have hka : k ≠ key a := by
      rintro rfl
      rw [AList.lookup_erase] at hk
      cases hk
    rw [AList.lookup_erase_ne hka] at hk
    have ⟨j, hj, hb⟩ := h.entry k b hk
    have hji : j ≠ i := by
      rintro rfl
      cases hi.symm.trans hj
      exact hka hb.symm
    exact ⟨j, update_eq_some_iff.mpr <| .inr ⟨hji, hj⟩, hb⟩
  exclusive j j' b b' hj hj' hb := by
    obtain ⟨-, e⟩ | ⟨-, hj⟩ := update_eq_some_iff.mp hj
    case inl => cases e
    obtain ⟨-, e⟩ | ⟨-, hj'⟩ := update_eq_some_iff.mp hj'
    case inl => cases e
    exact h.exclusive j j' b b' hj hj' hb

theorem card_le (h : Mirrors key entries owner) (owners : Finset ι) (ho : ∀ i ∈ owners, ∃ a, owner i = some a) :
    owners.card ≤ entries.keys.length := by
  choose a ha using ho
  have hm (i : owners) : key (a i i.2) ∈ entries.keys.toFinset := by
    rw [List.mem_toFinset, ← AList.mem_keys, ← AList.lookup_isSome, h.own i (a i i.2) (ha i i.2)]
    rfl
  have hinj : Set.InjOn (fun i : owners => key (a i i.2)) owners.attach :=
    fun i _ j _ hk => Subtype.ext <| h.exclusive i j (a i i.2) (a j j.2) (ha i i.2) (ha j j.2) hk
  calc owners.card
    _ = owners.attach.card         := Finset.card_attach.symm
    _ ≤ entries.keys.toFinset.card := Finset.card_le_card_of_injOn _ (fun i _ => hm i) hinj
    _ ≤ entries.keys.length        := List.toFinset_card_le _

end Mirrors
end Registry
