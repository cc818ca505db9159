import Mathlib.Data.List.Nodup

-- Maps that keep their entries in the order in which the keys were first set.

structure OrderedMap (κ α : Type) where
  entries : List (κ × α)
  nodup   : (entries.map (·.1)).Nodup

namespace OrderedMap

variable {κ α : Type}

def empty : OrderedMap κ α where
  entries := []
  nodup   := .nil

variable [DecidableEq κ]

def setEntries (k : κ) (a : α) : List (κ × α) → List (κ × α)
  | []           => [(k, a)]
  | e :: entries => if e.1 = k then (k, a) :: entries else e :: setEntries k a entries

theorem keys_setEntries (k : κ) (a : α) (entries : List (κ × α)) :
    (setEntries k a entries).map (·.1) =
    if k ∈ entries.map (·.1) then entries.map (·.1) else entries.map (·.1) ++ [k] := by
  induction entries with
  | nil => rfl
  | cons e entries ih =>
    rw [setEntries]
    by_cases h : e.1 = k
    case pos => simp [h]
    case neg =>
      have hk : k ≠ e.1 := fun hk => h hk.symm
      rw [if_neg h, List.map_cons, ih]
      split <;> simp_all

-- A key keeps its place if it is set again.
def set (map : OrderedMap κ α) (k : κ) (a : α) : OrderedMap κ α where
  entries := setEntries k a map.entries
  nodup   := by
    rw [keys_setEntries]
    split
    case isTrue    => exact map.nodup
    case isFalse h =>
      rw [← List.concat_eq_append]
      exact map.nodup.concat h

def get (map : OrderedMap κ α) (k : κ) : Option α :=
  map.entries.lookup k

variable {map : OrderedMap κ α} {k k' : κ} {a : α}

theorem lookup_cons (e : κ × α) (entries : List (κ × α)) :
    (e :: entries).lookup k = if k = e.1 then some e.2 else entries.lookup k := by
  obtain ⟨k', a⟩ := e
  by_cases h : k = k'
  case pos => simp [h]
  case neg =>
    have hb : (k == k') = false := beq_eq_false_iff_ne.mpr h
    rw [List.lookup_cons, hb, if_neg h]

theorem lookup_setEntries (entries : List (κ × α)) :
    (setEntries k a entries).lookup k' = if k' = k then some a else entries.lookup k' := by
  induction entries with
  | nil => exact lookup_cons (k, a) []
  | cons e entries ih =>
    rw [setEntries]
    by_cases h : e.1 = k
    case pos =>
      subst h
      rw [if_pos rfl, lookup_cons, lookup_cons]
      split <;> rfl
    case neg =>
      rw [if_neg h, lookup_cons, lookup_cons, ih]
      by_cases hk : k' = e.1
      case pos => simp [hk, h]
      case neg => simp [hk]

@[simp]
theorem get_set_self : (map.set k a).get k = some a := by
  rw [get, set, lookup_setEntries, if_pos rfl]

theorem get_set_of_ne (h : k' ≠ k) : (map.set k a).get k' = map.get k' := by
  rw [get, set, lookup_setEntries, if_neg h, get]

-- There is at most one entry with a key.
theorem filter_entries (map : OrderedMap κ α) (k : κ) :
    map.entries.filter (·.1 = k) = (map.get k).toList.map (k, ·) := by
  obtain ⟨entries, nodup⟩ := map
  change entries.filter (·.1 = k) = (entries.lookup k).toList.map (k, ·)
  induction entries with
  | nil => rfl
  | cons e entries ih =>
    have ⟨hm, hn⟩ := List.nodup_cons.mp nodup
    by_cases h : e.1 = k
    case pos =>
      have hf : entries.filter (·.1 = k) = [] := by
        refine List.filter_eq_nil_iff.mpr fun e' he' heq => hm ?_
        have hk : e'.1 = e.1 := (of_decide_eq_true heq).trans h.symm
        exact List.mem_map.mpr ⟨e', he', hk⟩
      rw [lookup_cons, if_pos h.symm]
      simp [h, hf, Prod.ext_iff]
    case neg =>
      rw [lookup_cons, if_neg fun hk => h hk.symm, ← ih hn]
      simp [h]

end OrderedMap
