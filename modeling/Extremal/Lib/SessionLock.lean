import Mathlib.Logic.Function.Basic
import Mathlib.Tactic.SplitIfs

-- Locks that sessions hold. A session may take a lock several times, and has to release it as often.

namespace SessionLock

structure Hold (σ : Type) where
  session : σ
  count   : Nat
  pos     : 0 < count

abbrev Locks (κ σ : Type) :=
  κ → Option (Hold σ)

variable {κ σ : Type}

namespace Hold

variable {hold hold' : Hold σ}

-- What is left of a hold after a release.
def release (hold : Hold σ) : Option (Hold σ) :=
  if h : 1 < hold.count then some { hold with count := hold.count - 1, pos := by omega } else none

theorem release_eq_none_iff : hold.release = none ↔ hold.count = 1 := by
  have := hold.pos
  simp [release]
  omega

theorem session_of_release (h : hold.release = some hold') : hold'.session = hold.session := by
  rw [release] at h
  split at h <;> cases h
  rfl

end Hold

namespace Locks

def free : Locks κ σ :=
  fun _ => none

def Holds (locks : Locks κ σ) (key : κ) (session : σ) : Prop :=
  ∃ hold, locks key = some hold ∧ hold.session = session

section

variable [DecidableEq κ] [DecidableEq σ] (locks : Locks κ σ) (key : κ) (session : σ)

def tryLock : Bool × Locks κ σ :=
  match locks key with
  | none      => (true, Function.update locks key <| some ⟨session, 1, Nat.one_pos⟩)
  | some hold =>
    if hold.session = session then
      (true, Function.update locks key <| some { hold with count := hold.count + 1, pos := hold.count.succ_pos })
    else (false, locks)

def unlock : Bool × Locks κ σ :=
  match locks key with
  | none      => (false, locks)
  | some hold => if hold.session = session then (true, Function.update locks key hold.release) else (false, locks)

end

variable [DecidableEq κ] [DecidableEq σ] {locks : Locks κ σ} {key : κ} {session : σ} {hold : Hold σ}

theorem tryLock_of_none (h : locks key = none) :
    locks.tryLock key session = (true, Function.update locks key <| some ⟨session, 1, Nat.one_pos⟩) := by
  rw [tryLock, h]

theorem tryLock_of_eq (h : locks key = some hold) (hs : hold.session = session) : locks.tryLock key session =
    (true, Function.update locks key <| some { hold with count := hold.count + 1, pos := hold.count.succ_pos }) := by
  rw [tryLock, h]
  exact if_pos hs

theorem tryLock_of_ne (h : locks key = some hold) (hs : hold.session ≠ session) :
    locks.tryLock key session = (false, locks) := by
  rw [tryLock, h]
  exact if_neg hs

-- A session gets a lock that no other session holds.
theorem tryLock_fst_iff : (locks.tryLock key session).1 = true ↔ ∀ hold, locks key = some hold → hold.session = session := by
  rw [tryLock]
  cases locks key
  case none => simp
  case some hold =>
    by_cases hs : hold.session = session
    case pos => simp [hs]
    case neg => simp [hs]

-- The session that gets a lock holds it.
theorem holds_of_tryLock (h : (locks.tryLock key session).1 = true) : (locks.tryLock key session).2.Holds key session := by
  cases hk : locks key
  case none =>
    rw [tryLock_of_none hk]
    exact ⟨_, Function.update_self .., rfl⟩
  case some hold =>
    have hs := tryLock_fst_iff.mp h hold hk
    rw [tryLock_of_eq hk hs]
    exact ⟨_, Function.update_self .., hs⟩

-- A session that does not get a lock changes nothing.
theorem tryLock_snd_of_false (h : (locks.tryLock key session).1 = false) : (locks.tryLock key session).2 = locks := by
  cases hk : locks key
  case none =>
    rw [tryLock_of_none hk] at h
    cases h
  case some hold =>
    have hs : hold.session ≠ session := by
      intro hs
      refine absurd (tryLock_fst_iff.mpr fun other ho => ?_) (ne_true_of_eq_false h)
      cases hk.symm.trans ho
      exact hs
    rw [tryLock_of_ne hk hs]

theorem unlock_of_eq (h : locks key = some hold) (hs : hold.session = session) :
    (locks.unlock key session).2 key = hold.release := by
  rw [unlock, h]
  simp [hs]

-- A session cannot release the lock of another session.
theorem unlock_of_ne (h : locks key = some hold) (hs : hold.session ≠ session) :
    (locks.unlock key session).2 = locks := by
  rw [unlock, h]
  simp [hs]

end Locks
end SessionLock
