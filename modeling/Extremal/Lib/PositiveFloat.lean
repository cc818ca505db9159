import Mathlib.Order.Compare
import Mathlib.Tactic.NormNum
import Extremal.Lib.Lexicographic

-- The positive 64-bit floating-point numbers are ordered as their bit patterns.

open Float.Model

namespace PositiveFloat

-- The IEEE comparison, from the two comparisons that it is derived from.
def partialCmp (x y : Float) : Option Ordering :=
  match decide (x ≤ y), decide (y ≤ x) with
  | false, false => none
  | false, true  => some .gt
  | true,  false => some .lt
  | true,  true  => some .eq

def toBeBytes (x : Float) : List UInt8 :=
  Lexicographic.beWord.encode x.toBits

section Fields

variable (b : BitVec 64)

def exponentField : Nat := b.toNat / 2 ^ 52 % 2 ^ 11
def mantissaField : Nat := b.toNat % 2 ^ 52

theorem unpackExponent_toNat :
    (@UnpackedFloat.unpackExponent Format.binary64 b).toNat = exponentField b := by
  simp [UnpackedFloat.unpackExponent, exponentField, BitVec.extractLsb_toNat, Nat.shiftRight_eq_div_pow]

theorem unpackMantissa_toNat :
    (@UnpackedFloat.unpackMantissa Format.binary64 b).toNat = mantissaField b := by
  simp [UnpackedFloat.unpackMantissa, mantissaField, BitVec.extractLsb_toNat]

theorem unpackSign_toNat :
    (@UnpackedFloat.unpackSign Format.binary64 b).toNat = b.toNat / 2 ^ 63 := by
  have := b.isLt
  unfold UnpackedFloat.unpackSign
  simp [BitVec.extractLsb_toNat, Nat.shiftRight_eq_div_pow]
  omega

theorem toNat_eq_fields (h : b.toNat < 2 ^ 63) : b.toNat = exponentField b * 2 ^ 52 + mantissaField b := by
  simp only [exponentField, mantissaField]
  omega

end Fields

-- A positive number is either infinite or `m * 2 ^ (e - 1074)`, with a mantissa of 53 bits unless the
-- exponent is the smallest one.
inductive Positive (b : Nat) : UnpackedFloat → Prop
  | infinity : b = 2047 * 2 ^ 52 → Positive b (.infinity .positive)
  | finite (e m : Nat) (x : Int) (pos) : x = e - 1074 → b = e * 2 ^ 52 + m → m < 2 ^ 53 → (0 < e → 2 ^ 52 ≤ m) →
    e < 2046 → Positive b (.finite .positive m x pos)

theorem Positive.subnormal {b M : Nat} {x : Int} {pos} (hx : x = -1074) (hb : b = M) (hm : M < 2 ^ 52) :
    Positive b (.finite .positive M x pos) :=
  .finite 0 M x pos (by omega) (by omega) (by omega) (by omega) (by omega)

theorem Positive.normal {b e m M : Nat} {x : Int} {pos} (hM : M = 2 ^ 52 + m) (hx : x = (e : Int) - 1075)
    (hb : b = e * 2 ^ 52 + m) (hm : m < 2 ^ 52) (h₁ : 0 < e) (h₂ : e < 2047) :
    Positive b (.finite .positive M x pos) := by
  obtain ⟨k, rfl⟩ : ∃ k, e = k + 1 := ⟨e - 1, by omega⟩
  exact .finite k M x pos (by omega) (by rw [hb, hM, Nat.succ_mul, Nat.add_assoc]) (by omega) (by omega) (by omega)

theorem toNat_one_append {v : BitVec 52} {m : Nat} (h : v.toNat = m) : ((1#1 : BitVec 1) ++ v).toNat = 2 ^ 52 + m := by
  subst h
  rw [BitVec.toNat_append, Nat.shiftLeft_eq]
  show 1 * 2 ^ 52 ||| v.toNat = 2 ^ 52 + v.toNat
  rw [Nat.mul_comm, ← Nat.two_pow_add_eq_or_of_lt v.isLt 1, Nat.mul_one]

theorem toNat_of_positive {v : BitVec 1} (h : UnpackedFloat.Sign.ofBitVec v = .positive) : v.toNat = 0 := by
  rw [UnpackedFloat.Sign.ofBitVec] at h
  split at h
  case isTrue hv  => simp [hv]
  case isFalse hv => cases h

theorem sign_of_lt_infinity {s : UnpackedFloat.Sign} (h : UnpackedFloat.lt (.zero .positive) (.infinity s)) :
    s = .positive := by
  cases s
  case positive => rfl
  case negative => cases h

theorem sign_of_lt_finite {s : UnpackedFloat.Sign} {m e pos}
    (h : UnpackedFloat.lt (.zero .positive) (.finite s m e pos)) : s = .positive := by
  cases s
  case positive => rfl
  case negative => cases h

theorem positive_of_lt {x : Float} (h : 0.0 < x) : Positive x.toBits.toNat x.toModel.unpack := by
  let b := x.toBits.toBitVec
  have hl : UnpackedFloat.lt (.zero .positive) (UnpackedFloat.unpack Format.binary64 b) := of_decide_eq_true h
  have he := unpackExponent_toNat b
  have hm := unpackMantissa_toNat b
  have hb (hs : UnpackedFloat.Sign.ofBitVec (@UnpackedFloat.unpackSign Format.binary64 b) = .positive) :
      b.toNat = exponentField b * 2 ^ 52 + mantissaField b := by
    have := unpackSign_toNat b
    rw [toNat_of_positive hs] at this
    exact toNat_eq_fields b (by omega)
  have hem : exponentField b < 2 ^ 11 ∧ mantissaField b < 2 ^ 52 := ⟨Nat.mod_lt _ (by decide), Nat.mod_lt _ (by decide)⟩
  show Positive b.toNat (UnpackedFloat.unpack Format.binary64 b)
  unfold UnpackedFloat.unpack at hl ⊢
  dsimp only at hl ⊢
  by_cases h₁ : @UnpackedFloat.unpackExponent Format.binary64 b = -1#_
  case pos =>
    rw [if_pos h₁] at hl ⊢
    by_cases h₂ : @UnpackedFloat.unpackMantissa Format.binary64 b = 0#_
    case neg => rw [if_neg h₂] at hl; cases hl
    case pos =>
      rw [if_pos h₂] at hl ⊢
      have hs := sign_of_lt_infinity hl
      rw [hs]
      refine .infinity ?_
      rw [hb hs, ← he, ← hm, h₁, h₂]
      rfl
  case neg =>
    rw [if_neg h₁] at hl ⊢
    have h₁' : exponentField b ≠ 2047 := fun h => h₁ <| BitVec.toNat_inj.mp <| by rw [he, h]; rfl
    by_cases h₂ : @UnpackedFloat.unpackExponent Format.binary64 b = 0#_
    case pos =>
      rw [if_pos h₂] at hl ⊢
      by_cases h₃ : @UnpackedFloat.unpackMantissa Format.binary64 b = 0#_
      case pos => rw [dif_pos h₃] at hl; cases hl
      case neg =>
        rw [dif_neg h₃] at hl ⊢
        have hs := sign_of_lt_finite hl
        have h₂' : exponentField b = 0 := by rw [← he, h₂]; rfl
        rw [hs]
        refine .subnormal ?_ ?_ ?_
        · rw [he, h₂']; rfl
        · rw [hm, hb hs, h₂', Nat.zero_mul, Nat.zero_add]
        · exact hm ▸ hem.2
    case neg =>
      rw [if_neg h₂] at hl ⊢
      have hs := sign_of_lt_finite hl
      have h₂' : exponentField b ≠ 0 := fun h => h₂ <| BitVec.toNat_inj.mp <| by rw [he, h]; rfl
      rw [hs]
      exact .normal (toNat_one_append hm) (by rw [he]; rfl) (hb hs) hem.2 (by omega) (by omega)

theorem compare_of_positive {b₁ b₂ : Nat} {u₁ u₂ : UnpackedFloat} (h₁ : Positive b₁ u₁) (h₂ : Positive b₂ u₂) :
    u₁.compare u₂ = some (compare b₁ b₂) := by
  cases h₁ <;> cases h₂
  case infinity.infinity h₁ h₂ => subst h₁ h₂; rfl
  case infinity.finite h₁ e m x pos hx hb hm hn he =>
    have : compare b₁ b₂ = .gt := Nat.compare_eq_gt.mpr (by omega)
    rw [this]; rfl
  case finite.infinity e m x pos hx hb hm hn he h₂ =>
    have : compare b₁ b₂ = .lt := Nat.compare_eq_lt.mpr (by omega)
    rw [this]; rfl
  case finite.finite e₁ m₁ x₁ _ hx₁ hb₁ hm₁ hn₁ he₁ e₂ m₂ x₂ _ hx₂ hb₂ hm₂ hn₂ he₂ =>
    have hx : compare x₁ x₂ = compare e₁ e₂ := by
      subst hx₁ hx₂
      simp only [compare, compareOfLessAndEq, Int.sub_lt_sub_right_iff, Int.sub_left_inj]
      simp
    show some ((compare x₁ x₂).then (compare m₁ m₂)) = _
    rw [hx]
    rcases Nat.lt_trichotomy e₁ e₂ with h | h | h
    case inl =>
      rw [Nat.compare_eq_lt.mpr h, Nat.compare_eq_lt.mpr (by omega : b₁ < b₂)]; rfl
    case inr.inl =>
      subst h
      rw [Nat.compare_eq_eq.mpr rfl, hb₁, hb₂]
      simp only [Ordering.eq_then, compare, compareOfLessAndEq]
      simp
    case inr.inr =>
      rw [Nat.compare_eq_gt.mpr h, Nat.compare_eq_gt.mpr (by omega : b₂ < b₁)]; rfl

theorem le_iff {x y : Float} (hx : 0.0 < x) (hy : 0.0 < y) : x ≤ y ↔ (compare x.toBits y.toBits).isLE := by
  have h : (x ≤ y) = (((x.toModel.unpack.compare y.toModel.unpack).any (·.isLE)) = true) := by
    show (decide _ = true) = _
    rw [decide_eq_true_eq]
    rfl
  rw [h, compare_of_positive (positive_of_lt hx) (positive_of_lt hy), Lexicographic.compare_uint64]
  rfl

theorem lt_iff {x y : Float} (hx : 0.0 < x) (hy : 0.0 < y) : x < y ↔ compare x.toBits y.toBits = .lt := by
  have h : (x < y) = ((x.toModel.unpack.compare y.toModel.unpack == some .lt) = true) := by
    show (decide _ = true) = _
    rw [decide_eq_true_eq]
    rfl
  rw [h, compare_of_positive (positive_of_lt hx) (positive_of_lt hy), Lexicographic.compare_uint64]
  simp

theorem toBits_inj {x y : Float} : x.toBits = y.toBits ↔ x = y := by
  constructor
  case mpr => rintro rfl; rfl
  case mp =>
    obtain ⟨⟨_, _⟩⟩ := x
    obtain ⟨⟨_, _⟩⟩ := y
    rintro (rfl : _ = _)
    rfl

theorem partialCmp_eq {x y : Float} (hx : 0.0 < x) (hy : 0.0 < y) :
    partialCmp x y = some (compare x.toBits y.toBits) := by
  simp only [partialCmp, le_iff hx hy, le_iff hy hx]
  rw [Std.OrientedOrd.eq_swap (a := y.toBits)]
  cases compare x.toBits y.toBits <;> rfl

theorem length_toBeBytes (x : Float) : (toBeBytes x).length = 8 :=
  Lexicographic.beWord.length_encode _

end PositiveFloat
