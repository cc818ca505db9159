import Mathlib.Data.List.Nodup

-- Tables with a primary key. An insertion that meets a row with its key merges into that row.

namespace Upsert

variable {α κ : Type} [DecidableEq κ] (key : α → κ) (merge : α → α → α)

def upsert (rows : List α) (a : α) : List α :=
  if rows.any (key · = key a) then rows.map fun row => if key row = key a then merge row a else row
  else rows ++ [a]

-- What the insertions with one key make of its row.
def collect (row : Option α) (a : α) : Option α :=
  some <| row.elim a (merge · a)

variable {key merge} {rows : List α} {a : α} {k : κ} (hm : ∀ row a, key (merge row a) = key row)

theorem mem_upsert {row : α} (h : row ∈ upsert key merge rows a) :
    row ∈ rows ∨ row = a ∧ (∀ row' ∈ rows, key row' ≠ key a) ∨ ∃ row' ∈ rows, key row' = key a ∧ row = merge row' a := by
  rw [upsert] at h
  split at h
  case isTrue =>
    obtain ⟨row', hr, rfl⟩ := List.mem_map.mp h
    split
    case isTrue hk => exact .inr <| .inr ⟨row', hr, hk, rfl⟩
    case isFalse   => exact .inl hr
  case isFalse hn =>
    refine (List.mem_append.mp h).imp_right fun h => .inl ⟨List.mem_singleton.mp h, fun row' hr hk => hn ?_⟩
    exact List.any_eq_true.mpr ⟨row', hr, decide_eq_true hk⟩

include hm

theorem find?_map_merge : (rows.map fun row => if key row = key a then merge row a else row).find? (key · = k) =
    (rows.find? (key · = k)).map fun row => if key row = key a then merge row a else row := by
  rw [List.find?_map]
  congr 2
  funext row
  simp only [Function.comp_apply]
  split
  case isTrue  => rw [hm]
  case isFalse => rfl

-- An insertion concerns no other key.
theorem find?_upsert : (upsert key merge rows a).find? (key · = k) =
    if key a = k then collect merge (rows.find? (key · = k)) a else rows.find? (key · = k) := by
  rw [upsert]
  split
  case isTrue h =>
    rw [find?_map_merge hm]
    split
    case isTrue hk =>
      subst hk
      have ⟨row, hr⟩ : ∃ row, rows.find? (key · = key a) = some row := by
        obtain ⟨row, hr, hk⟩ := List.any_eq_true.mp h
        exact Option.isSome_iff_exists.mp <| List.find?_isSome.mpr ⟨row, hr, hk⟩
      have hk : key row = key a := by simpa using List.find?_some hr
      rw [hr, Option.map_some, if_pos hk]
      rfl
    case isFalse hk =>
      cases hr : rows.find? (key · = k)
      case none     => rfl
      case some row =>
        have hk' : key row = k := by simpa using List.find?_some hr
        rw [Option.map_some, if_neg fun he => hk <| he.symm.trans hk']
  case isFalse h =>
    rw [List.find?_append]
    split
    case isTrue hk =>
      subst hk
      have hn : rows.find? (key · = key a) = none := by
        rw [List.find?_eq_none]
        exact fun row hr hk => h <| List.any_eq_true.mpr ⟨row, hr, hk⟩
      simp [hn, collect]
    case isFalse hk => simp [hk]

-- The row of a key is what the insertions with this key make of it.
theorem find?_foldl (l : List α) : (l.foldl (upsert key merge) rows).find? (key · = k) =
    (l.filter (key · = k)).foldl (collect merge) (rows.find? (key · = k)) := by
  induction l generalizing rows
  case nil => rfl
  case cons a l ih =>
    rw [List.foldl_cons, ih, find?_upsert hm, List.filter_cons]
    split <;> simp_all

theorem nodup_upsert (h : (rows.map key).Nodup) : ((upsert key merge rows a).map key).Nodup := by
  rw [upsert]
  split
  case isTrue =>
    have he : key ∘ (fun row => if key row = key a then merge row a else row) = key := by
      funext row
      simp only [Function.comp_apply]
      split
      case isTrue  => exact hm row a
      case isFalse => rfl
    rwa [List.map_map, he]
  case isFalse hn =>
    rw [List.map_append, List.nodup_append_comm]
    refine List.nodup_cons.mpr ⟨fun hk => hn ?_, h⟩
    obtain ⟨row, hr, hk⟩ := List.mem_map.mp hk
    exact List.any_eq_true.mpr ⟨row, hr, decide_eq_true hk⟩

end Upsert
