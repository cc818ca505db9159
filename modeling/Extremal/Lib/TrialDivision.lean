import Mathlib.Data.Nat.Prime.Basic

-- Trial division by the numbers that leave the remainder 1 or 5 modulo 6.

namespace TrialDivision

-- No number from 2 up to `i` (exclusive) divides `n`.
def Survives (n i : Nat) : Prop :=
  ∀ d, 2 ≤ d → d < i → ¬d ∣ n

variable {n i : Nat}

theorem survives_five (h₂ : n % 2 ≠ 0) (h₃ : n % 3 ≠ 0) : Survives n 5 := by
  intro d hd hi h
  obtain ⟨c, rfl⟩ := h
  rcases (by omega : d = 2 ∨ d = 3 ∨ d = 4) with rfl | rfl | rfl <;> omega

-- The four numbers between two divisors of the same remainder are multiples of 2 or 3.
theorem Survives.wheel (h : Survives n i) (hi : i % 6 = 5) (h₀ : n % i ≠ 0) (h₂ : n % (i + 2) ≠ 0) :
    Survives n (i + 6) := by
  intro d hd hlt hdvd
  have small {q} (hq : 2 ≤ q) (hq' : q < i) (he : d % q = 0) : False :=
    h q hq hq' <| (Nat.dvd_of_mod_eq_zero he).trans hdvd
  rcases (by omega : d < i ∨ d = i ∨ d = i + 2 ∨ d % 2 = 0 ∨ d % 3 = 0) with hc | rfl | rfl | hc | hc
  · exact h d hd hc hdvd
  · exact h₀ <| Nat.mod_eq_zero_of_dvd hdvd
  · exact h₂ <| Nat.mod_eq_zero_of_dvd hdvd
  · exact small le_rfl (by omega) hc
  · exact small (by decide) (by omega) hc

theorem Survives.prime (h : Survives n i) (hn : 2 ≤ n) (hi : n < i * i) : n.Prime := by
  by_contra hp
  refine h n.minFac (Nat.minFac_prime (by omega)).two_le ?_ n.minFac_dvd
  have := Nat.minFac_sq_le_self (by omega) hp
  rw [pow_two] at this
  exact Nat.mul_self_lt_mul_self_iff.mp <| this.trans_lt hi

theorem not_prime {d : Nat} (hd : 2 ≤ d) (hn : d < n) (h : n % d = 0) : ¬n.Prime :=
  Nat.not_prime_of_dvd_of_lt (Nat.dvd_of_mod_eq_zero h) hd hn

end TrialDivision
