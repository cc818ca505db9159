import Mathlib.Order.Defs.LinearOrder
import Mathlib.Tactic.Ring

-- Words under the lexicographic order, and codes that preserve it.
--
-- A code maps each symbol to a word of one fixed width. If it preserves the comparison of single
-- symbols, then concatenating codewords preserves the comparison of whole messages.

open Std

namespace Lexicographic

section

variable [Ord α]

theorem compare_append {l₁ l₂ : List α} (h : l₁.length = l₂.length) (r₁ r₂ : List α) :
    compare (l₁ ++ r₁) (l₂ ++ r₂) = (compare l₁ l₂).then (compare r₁ r₂) := by
  induction l₁ generalizing l₂ <;> cases l₂ <;> simp at h
  case nil.nil           => rfl
  case cons.cons hi _ _  => simp [hi h, Ordering.then_assoc]

theorem compare_cons_then {a b : α} {l₁ l₂ : List α} {o : Ordering} (h : compare l₁ l₂ = o) :
    compare (a :: l₁) (b :: l₂) = (compare a b).then o := by
  rw [List.compare_cons_cons, h]

end

-- A fixed-width code that preserves the order of the symbols it encodes.
structure OrderCode (α β) [Ord α] [Ord β] where
  encode         : α → List β
  width          : Nat
  length_encode  : ∀ a, (encode a).length = width
  compare_encode : ∀ a b, compare (encode a) (encode b) = compare a b

namespace OrderCode

variable [Ord α] [Ord β] (c : OrderCode α β)

def encodeAll (as : List α) : List β :=
  as.flatMap c.encode

@[simp]
theorem encodeAll_nil : c.encodeAll [] = [] :=
  rfl

@[simp]
theorem encodeAll_cons (a : α) (as : List α) : c.encodeAll (a :: as) = c.encode a ++ c.encodeAll as :=
  List.flatMap_cons

theorem length_encodeAll (as : List α) : (c.encodeAll as).length = as.length * c.width := by
  induction as
  case nil          => simp
  case cons a as hi => simp [hi, c.length_encode]; ring

theorem compare_encodeAll {as bs : List α} (h : as.length = bs.length) :
    compare (c.encodeAll as) (c.encodeAll bs) = compare as bs := by
  induction as generalizing bs <;> cases bs <;> simp at h
  case nil.nil => rfl
  case cons.cons a as hi b bs =>
    have hw : (c.encode a).length = (c.encode b).length := by simp [c.length_encode]
    simp [compare_append hw, c.compare_encode, hi h]

end OrderCode

theorem compare_mul_add {B q₁ q₂ r₁ r₂ : Nat} (h₁ : r₁ < B) (h₂ : r₂ < B) :
    compare (q₁ * B + r₁) (q₂ * B + r₂) = (compare q₁ q₂).then (compare r₁ r₂) := by
  rcases Nat.lt_trichotomy q₁ q₂ with h | h | h
  case inl =>
    have : (q₁ + 1) * B ≤ q₂ * B := Nat.mul_le_mul_right _ h
    rw [Nat.compare_eq_lt.mpr h, Ordering.lt_then]
    exact Nat.compare_eq_lt.mpr <| by grind
  case inr.inl =>
    subst h
    rw [Nat.compare_eq_eq.mpr rfl, Ordering.eq_then]
    simp only [Nat.compare_eq_ite_lt]
    grind
  case inr.inr =>
    have : (q₂ + 1) * B ≤ q₁ * B := Nat.mul_le_mul_right _ h
    rw [Nat.compare_eq_gt.mpr h, Ordering.gt_then]
    exact Nat.compare_eq_gt.mpr <| by grind

-- The `width` least significant bytes of a number, most significant byte first.
def beBytes : (width : Nat) → Nat → List UInt8
  | 0,         _ => []
  | width + 1, x => UInt8.ofNat (x / 256 ^ width) :: beBytes width x

@[simp]
theorem length_beBytes : (width x : Nat) → (beBytes width x).length = width
  | 0,         _ => rfl
  | width + 1, x => by simp [beBytes, length_beBytes width x]

theorem compare_uint8 (a b : UInt8) : compare a b = compare a.toNat b.toNat := by
  simp only [compare, compareOfLessAndEq, UInt8.lt_iff_toNat_lt, UInt8.toNat_inj]

theorem compare_uint64 (a b : UInt64) : compare a b = compare a.toNat b.toNat := by
  simp only [compare, compareOfLessAndEq, UInt64.lt_iff_toNat_lt, UInt64.toNat_inj]

theorem compare_beBytes (width x y : Nat) :
    compare (beBytes width x) (beBytes width y) = compare (x % 256 ^ width) (y % 256 ^ width) := by
  induction width
  case zero => simp [beBytes, Nat.mod_one]
  case succ width hi =>
    have hp : 0 < 256 ^ width := Nat.pow_pos (by decide)
    have split (z : Nat) : z % 256 ^ (width + 1) = z / 256 ^ width % 256 * 256 ^ width + z % 256 ^ width := by
      rw [Nat.pow_succ, Nat.mod_mul]; ring
    rw [beBytes, beBytes, compare_cons_then hi, compare_uint8, split x, split y]
    rw [compare_mul_add (Nat.mod_lt _ hp) (Nat.mod_lt _ hp)]
    simp

theorem beBytes_of_lt {width x y : Nat} (hx : x < 256 ^ width) (hy : y < 256 ^ width) :
    compare (beBytes width x) (beBytes width y) = compare x y := by
  rw [compare_beBytes, Nat.mod_eq_of_lt hx, Nat.mod_eq_of_lt hy]

-- The big-endian bytes of a 64-bit word.
def beWord : OrderCode UInt64 UInt8 where
  encode x           := beBytes 8 x.toNat
  width              := 8
  length_encode _    := length_beBytes ..
  compare_encode x y := by
    rw [beBytes_of_lt (by simpa using x.toNat_lt) (by simpa using y.toNat_lt), compare_uint64]

-- A word of symbols, ordered lexicographically (a proper prefix comes first).
structure Word (α : Type u) where
  symbols : List α
deriving DecidableEq, Repr

namespace Word

variable [Ord α]

instance : LE (Word α) where
  le v w := (compare v.symbols w.symbols).isLE

instance : LT (Word α) where
  lt v w := compare v.symbols w.symbols = .lt

theorem le_def {v w : Word α} : v ≤ w ↔ (compare v.symbols w.symbols).isLE := Iff.rfl

theorem lt_def {v w : Word α} : v < w ↔ compare v.symbols w.symbols = .lt := Iff.rfl

variable [TransOrd α] [LawfulEqOrd α]

instance [DecidableEq α] : LinearOrder (Word α) where
  le_refl v            := by simp [le_def, ReflOrd.compare_self]
  le_trans _ _ _       := TransOrd.isLE_trans
  le_antisymm v w h h' := by
    have he : compare v.symbols w.symbols = .eq :=
      Ordering.eq_eq_of_isLE_of_isLE_swap h (by rwa [← OrientedOrd.eq_swap])
    cases v; cases w
    exact congrArg Word.mk <| LawfulEqOrd.eq_of_compare he
  le_total v w := by
    simp only [le_def]
    rw [OrientedOrd.eq_swap (a := w.symbols)]
    cases compare v.symbols w.symbols <;> simp
  lt_iff_le_not_ge v w := by
    simp only [le_def, lt_def]
    rw [OrientedOrd.eq_swap (a := w.symbols)]
    cases compare v.symbols w.symbols <;> simp
  toDecidableLE := fun v w => inferInstanceAs (Decidable ((compare v.symbols w.symbols).isLE = true))
  toDecidableLT := fun v w => inferInstanceAs (Decidable (compare v.symbols w.symbols = .lt))
  toDecidableEq := inferInstance

end Word
end Lexicographic
