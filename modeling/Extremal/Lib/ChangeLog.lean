import Mathlib.Data.Finset.Basic

-- Sets that a log of changes describes.

namespace ChangeLog

inductive Change (κ : Type)
  | add (k : κ)
  | remove (k : κ)

variable {κ : Type}

def Change.key : Change κ → κ
  | add k | remove k => k

def Change.isAdd : Change κ → Bool
  | add _    => true
  | remove _ => false

variable [DecidableEq κ]

def Change.apply (s : Finset κ) : Change κ → Finset κ
  | add k    => insert k s
  | remove k => s.erase k

def replay (changes : List (Change κ)) : Finset κ :=
  changes.foldl Change.apply ∅

variable {changes : List (Change κ)} {change : Change κ} {k : κ}

theorem replay_concat : replay (changes ++ [change]) = change.apply (replay changes) := by
  simp [replay]

-- The last change of a key decides.
theorem key_mem_replay_concat : change.key ∈ replay (changes ++ [change]) ↔ change.isAdd := by
  rw [replay_concat]
  cases change <;> simp [Change.apply, Change.key, Change.isAdd]

theorem mem_replay_concat_of_ne (h : k ≠ change.key) : k ∈ replay (changes ++ [change]) ↔ k ∈ replay changes := by
  rw [replay_concat]
  cases change <;> simp_all [Change.apply, Change.key]

end ChangeLog
