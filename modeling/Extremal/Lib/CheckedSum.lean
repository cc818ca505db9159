import Mathlib.Data.UInt
import Mathlib.Algebra.Group.Hom.Defs
import Mathlib.Algebra.Group.Nat.Defs

-- Sums of 64-bit numbers in a program that an overflow stops. What has stopped stays so, hence checked
-- sums form a commutative monoid, and counting into it is additive.

inductive CheckedU64
  | num (a : UInt64)
  | stopped
deriving DecidableEq

namespace CheckedU64

def ofNat (n : Nat) : CheckedU64 :=
  if n < 2 ^ 64 then num (.ofNat n) else stopped

instance : Zero CheckedU64 where
  zero := num 0

instance : Add CheckedU64 where
  add
    | num a, num b => if a.toNat + b.toNat < 2 ^ 64 then num (a + b) else stopped
    | _,     _     => stopped

theorem ofNat_of_lt {n : Nat} (h : n < 2 ^ 64) : ofNat n = num (.ofNat n) :=
  if_pos h

theorem ofNat_of_not_lt {n : Nat} (h : ¬n < 2 ^ 64) : ofNat n = stopped :=
  if_neg h

theorem exists_ofNat : (a : CheckedU64) → ∃ n, a = ofNat n
  | num a   => ⟨a.toNat, by rw [ofNat_of_lt a.toNat_lt, UInt64.ofNat_toNat]⟩
  | stopped => ⟨2 ^ 64, rfl⟩

theorem stopped_add (a : CheckedU64) : stopped + a = stopped :=
  rfl

theorem add_stopped : (a : CheckedU64) → a + stopped = stopped
  | num _ | stopped => rfl

theorem num_add_num (a b : UInt64) : num a + num b = ofNat (a.toNat + b.toNat) := by
  rw [ofNat, UInt64.ofNat_add, UInt64.ofNat_toNat, UInt64.ofNat_toNat]
  rfl

theorem ofNat_add (m n : Nat) : ofNat (m + n) = ofNat m + ofNat n := by
  by_cases hm : m < 2 ^ 64
  case neg => rw [ofNat_of_not_lt hm, stopped_add, ofNat_of_not_lt (by omega)]
  by_cases hn : n < 2 ^ 64
  case neg => rw [ofNat_of_not_lt hn, add_stopped, ofNat_of_not_lt (by omega)]
  case pos =>
    rw [ofNat_of_lt hm, ofNat_of_lt hn, num_add_num, UInt64.toNat_ofNat_of_lt' hm, UInt64.toNat_ofNat_of_lt' hn]

instance : AddCommMonoid CheckedU64 where
  add_assoc a b c := by
    have ⟨l, ha⟩ := exists_ofNat a
    have ⟨m, hb⟩ := exists_ofNat b
    have ⟨n, hc⟩ := exists_ofNat c
    simp only [ha, hb, hc, ← ofNat_add, Nat.add_assoc]
  zero_add a := by
    have ⟨n, ha⟩ := exists_ofNat a
    rw [ha]
    exact ofNat_add 0 n |>.symm.trans <| congrArg ofNat (Nat.zero_add n)
  add_zero a := by
    have ⟨n, ha⟩ := exists_ofNat a
    rw [ha]
    exact ofNat_add n 0 |>.symm
  add_comm a b := by
    have ⟨m, ha⟩ := exists_ofNat a
    have ⟨n, hb⟩ := exists_ofNat b
    simp only [ha, hb, ← ofNat_add, Nat.add_comm]
  nsmul := nsmulRec

def ofNatHom : Nat →+ CheckedU64 where
  toFun     := ofNat
  map_zero' := rfl
  map_add'  := ofNat_add

end CheckedU64
