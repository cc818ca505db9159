import Mathlib.Algebra.Field.Rat
import Extremal.Lib.PositiveFloat

-- The 64-bit integers as floating-point numbers.

open Float.Model UnpackedFloat

namespace IntegerFloat

theorem mantissa_shiftRight (em : ExtendedMantissa) (k : Nat) : (em >>> k).mantissa = em.mantissa / 2 ^ k := by
  change (k.repeat ExtendedMantissa.shiftRightOne em).mantissa = _
  induction k with
  | zero => exact (Nat.div_one _).symm
  | succ k ih =>
    rw [Nat.pow_succ, ← Nat.div_div_eq_div_mul, ← ih]
    rfl

theorem mantissa_ofMantissaAndAccuracy (m : Nat) (acc : Accuracy) :
    (ExtendedMantissa.ofMantissaAndAccuracy m acc).mantissa = m := by
  obtain _ | _ | _ | _ := acc <;> rfl

theorem roundedMantissa_bounds (em : ExtendedMantissa) :
    em.mantissa ≤ em.roundedMantissa ∧ em.roundedMantissa ≤ em.mantissa + 1 := by
  obtain ⟨m, _ | _, _ | _⟩ := em
  case false.false => exact ⟨le_rfl, Nat.le_succ m⟩
  case false.true  => exact ⟨le_rfl, Nat.le_succ m⟩
  case true.false  =>
    change m ≤ m + m % 2 ∧ m + m % 2 ≤ m + 1
    omega
  case true.true   => exact ⟨Nat.le_succ m, le_rfl⟩

-- A mantissa of 53 bits.
def Normal (m : Nat) : Prop :=
  2 ^ 52 ≤ m ∧ m < 2 ^ 53

theorem Normal.log2 {m : Nat} (h : Normal m) : m.log2 = 52 :=
  (Nat.log2_eq_iff (by have := h.1; omega)).mpr h

theorem le_log2 {m : Nat} (h : 2 ^ 52 ≤ m) : 52 ≤ m.log2 :=
  (Nat.le_log2 (by omega)).mpr h

theorem normal_div {m : Nat} (h : 2 ^ 52 ≤ m) : Normal (m / 2 ^ (m.log2 - 52)) := by
  obtain ⟨d, hd⟩ := Nat.exists_eq_add_of_le <| le_log2 h
  have hl := Nat.log2_self_le (n := m) (by omega)
  have hr := Nat.lt_log2_self (n := m)
  rw [hd] at hl hr ⊢
  rw [Nat.add_sub_cancel_left]
  constructor
  case left =>
    rw [Nat.le_div_iff_mul_le (Nat.two_pow_pos d), ← Nat.pow_add]
    exact hl
  case right =>
    rw [Nat.div_lt_iff_lt_mul (Nat.two_pow_pos d), ← Nat.pow_add]
    exact (show 52 + d + 1 = 53 + d by omega) ▸ hr

theorem targetExponent_eq {m : Nat} {e : Int} (hm : 2 ^ 52 ≤ m) (he : -1074 ≤ e) :
    Format.binary64.targetExponent (totalExponent m e) = e + (m.log2 - 52 : Nat) := by
  have hl := le_log2 hm
  change max ((m.log2 : Int) + 1 + e - 53) (-1074) = _
  omega

theorem shiftToTargetExponent_eq {m : Nat} {e : Int} (acc : Accuracy) (hm : 2 ^ 52 ≤ m) (he : -1074 ≤ e) :
    shiftToTargetExponent Format.binary64 m e acc =
    (ExtendedMantissa.ofMantissaAndAccuracy m acc >>> (m.log2 - 52), e + (m.log2 - 52 : Nat)) := by
  rw [shiftToTargetExponent, targetExponent_eq hm he, shiftToExponent, add_sub_cancel_left, Int.toNat_natCast]

theorem roundWithAccuracy_eq {m : Nat} {e e₁ e₂ : Int} {em₁ em₂ : ExtendedMantissa} (s : Sign) (acc : Accuracy)
    (h₁ : shiftToTargetExponent Format.binary64 m e acc = (em₁, e₁))
    (h₂ : shiftToTargetExponent Format.binary64 em₁.roundedMantissa e₁ .exact = (em₂, e₂)) (pos : 0 < em₂.mantissa) :
    roundWithAccuracy Format.binary64 s m e acc = .finite s em₂.mantissa e₂ pos := by
  unfold roundWithAccuracy
  rw [h₁]
  dsimp only
  rw [h₂]
  exact dif_neg <| Nat.ne_of_gt pos

-- Rounding up may take one more bit, which is shifted out.
theorem roundWithAccuracy_finite {m : Nat} {e : Int} (s : Sign) (acc : Accuracy) (hm : 2 ^ 52 ≤ m) (he : -1074 ≤ e) :
    ∃ m' e' pos, roundWithAccuracy Format.binary64 s m e acc = .finite s m' e' pos ∧ Normal m' ∧
      e + (m.log2 - 52 : Nat) ≤ e' ∧ e' ≤ e + (m.log2 - 52 : Nat) + 1 := by
  let em := ExtendedMantissa.ofMantissaAndAccuracy m acc >>> (m.log2 - 52)
  have hn : Normal em.mantissa := by
    rw [mantissa_shiftRight, mantissa_ofMantissaAndAccuracy]
    exact normal_div hm
  have ⟨hl, hr⟩ := roundedMantissa_bounds em
  have hr' : 2 ^ 52 ≤ em.roundedMantissa := hn.1.trans hl
  have hlog : em.roundedMantissa.log2 - 52 ≤ 1 := by
    have hlt := hn.2
    have : em.roundedMantissa.log2 < 54 := (Nat.log2_lt (by omega)).mpr (by omega)
    omega
  have h₂ := shiftToTargetExponent_eq .exact hr' (by omega : -1074 ≤ e + (m.log2 - 52 : Nat))
  have hn' : Normal (ExtendedMantissa.ofMantissaAndAccuracy em.roundedMantissa .exact >>>
      (em.roundedMantissa.log2 - 52)).mantissa := by
    rw [mantissa_shiftRight]
    exact normal_div hr'
  have pos := Nat.lt_of_lt_of_le (Nat.two_pow_pos 52) hn'.1
  exact ⟨_, _, pos, roundWithAccuracy_eq s acc (shiftToTargetExponent_eq acc hm he) h₂ pos, hn', by omega, by omega⟩

theorem shiftLeft_ne_zero {k : Nat} (hk : 0 < k) (d : Nat) : k <<< d ≠ 0 := by
  rw [Nat.shiftLeft_eq]
  exact Nat.ne_of_gt <| Nat.mul_pos hk <| Nat.two_pow_pos d

theorem log2_shiftLeft {k : Nat} (hk : 0 < k) (d : Nat) : (k <<< d).log2 = k.log2 + d := by
  rw [Nat.log2_eq_iff (shiftLeft_ne_zero hk d), Nat.shiftLeft_eq, Nat.pow_add, Nat.add_right_comm, Nat.pow_add]
  have hl := Nat.log2_self_le (Nat.ne_of_gt hk)
  have hr := Nat.lt_log2_self (n := k)
  exact ⟨Nat.mul_le_mul_right _ hl, Nat.mul_lt_mul_of_pos_right hr <| Nat.two_pow_pos d⟩

theorem round_finite {k : Nat} (s : Sign) (hk : 0 < k) :
    ∃ m e pos, UnpackedFloat.round Format.binary64 s k 0 = .finite s m e pos ∧ Normal m ∧
      (k.log2 : Int) - 52 ≤ e ∧ e ≤ k.log2 - 51 := by
  have ht : Format.binary64.targetExponent (totalExponent k 0) = (k.log2 : Int) - 52 := by
    change max ((k.log2 : Int) + 1 + 0 - 53) (-1074) = _
    omega
  have hl := log2_shiftLeft hk (52 - k.log2)
  have hm : 2 ^ 52 ≤ k <<< (52 - k.log2) := (Nat.le_log2 (shiftLeft_ne_zero hk _)).mp (by omega)
  have hs : (0 - ((k.log2 : Int) - 52)).toNat = 52 - k.log2 := by omega
  rw [UnpackedFloat.round, ht, decreaseExponent, hs]
  obtain ⟨m, e, pos, hr, hn, hle, hle'⟩ := roundWithAccuracy_finite s .exact hm
    (by omega : -1074 ≤ 0 - ((52 - k.log2 : Nat) : Int))
  exact ⟨m, e, pos, hr, hn, by omega, by omega⟩

theorem unpackSign_packComponents {spec : Format} (s : Sign) (exponent : BitVec spec.exponentBits)
    (mantissa : BitVec spec.mantissaBitsWithoutImplicit) :
    unpackSign (packComponents spec s exponent mantissa) = s.toBitVec := by
  refine BitVec.eq_of_getLsbD_eq fun i hi => ?_
  obtain rfl : i = 0 := by omega
  unfold unpackSign packComponents
  simp [BitVec.getLsbD_append, BitVec.getElem_append]

theorem ofBitVec_toBitVec (s : Sign) : Sign.ofBitVec s.toBitVec = s := by
  cases s <;> rfl

theorem finite_congr {s s' : Sign} {m m' : Nat} {e e' : Int} {pos : 0 < m} {pos' : 0 < m'} (hs : s = s') (hm : m = m')
    (he : e = e') : UnpackedFloat.finite s m e pos = .finite s' m' e' pos' := by
  subst hs hm he
  rfl

theorem pack_finite {m : Nat} {e : Int} {b : Nat} (s : Sign) (pos : 0 < m) (hm : Normal m) (he : e + 1075 = b)
    (hb : b < 2047) : UnpackedFloat.pack Format.binary64 (.finite s m e pos) =
    packComponents Format.binary64 s (BitVec.ofNat 11 b) (BitVec.ofNat 52 m) := by
  have hb' : (e + 1023 + 52).toNat = b := by omega
  have hl : m.log2 + 1 = 53 := congrArg (· + 1) hm.log2
  change (if 2 ^ 11 ≤ (e + 1023 + 52).toNat + 1 then _ else if m.log2 + 1 = 53 then
    packComponents Format.binary64 s (BitVec.ofNat 11 (e + 1023 + 52).toNat) (BitVec.ofNat 52 m) else _) = _
  rw [hb', if_neg (by omega), if_pos hl]

theorem unpack_normal {b : BitVec 64} {exponent : BitVec 11} {mantissa : BitVec 52}
    (he : @unpackExponent Format.binary64 b = exponent) (hm : @unpackMantissa Format.binary64 b = mantissa)
    (h₁ : exponent ≠ -1#11) (h₂ : exponent ≠ 0#11) : UnpackedFloat.unpack Format.binary64 b =
    .finite (Sign.ofBitVec (@unpackSign Format.binary64 b)) (1#1 ++ mantissa).toNat (exponent.toNat - (1023 + 52))
      (by rw [PositiveFloat.toNat_one_append rfl]; omega) := by
  subst he hm
  unfold UnpackedFloat.unpack
  dsimp only
  rw [if_neg h₁, if_neg h₂]
  rfl

theorem unpack_pack {m : Nat} {e : Int} (s : Sign) (pos : 0 < m) (hm : Normal m) (he : -1074 ≤ e) (he' : e < 970) :
    UnpackedFloat.unpack Format.binary64 (UnpackedFloat.pack Format.binary64 (.finite s m e pos)) =
    .finite s m e pos := by
  obtain ⟨b, hb⟩ := Int.eq_ofNat_of_zero_le (by omega : 0 ≤ e + 1075)
  have ⟨hl, hr⟩ := hm
  have hv : (BitVec.ofNat 11 b).toNat = b := by
    rw [BitVec.toNat_ofNat, Nat.mod_eq_of_lt (by omega)]
  have h₁ : BitVec.ofNat 11 b ≠ -1#11 := by
    intro h
    have hb' : b = 2047 := hv.symm.trans <| congrArg BitVec.toNat h
    omega
  have h₂ : BitVec.ofNat 11 b ≠ 0#11 := by
    intro h
    have hb' : b = 0 := hv.symm.trans <| congrArg BitVec.toNat h
    omega
  rw [pack_finite s pos hm hb (by omega),
    unpack_normal unpackExponent_packComponents unpackMantissa_packComponents h₁ h₂]
  refine finite_congr ?_ ?_ ?_
  case refine_1 => rw [unpackSign_packComponents, ofBitVec_toBitVec]
  case refine_2 =>
    rw [PositiveFloat.toNat_one_append (BitVec.toNat_ofNat m 52)]
    omega
  case refine_3 =>
    rw [hv]
    omega

theorem ofInt_pos {k : Nat} (hk : 0 < k) :
    UnpackedFloat.ofInt Format.binary64 k = UnpackedFloat.round Format.binary64 .positive k 0 := by
  have hc : compare (k : Int) 0 = .gt := compare_gt_iff_gt.mpr (by omega)
  unfold UnpackedFloat.ofInt UnpackedFloat.normalize
  rw [hc]
  rfl

theorem ofInt_neg {k : Nat} (hk : 0 < k) :
    UnpackedFloat.ofInt Format.binary64 (-k) = UnpackedFloat.round Format.binary64 .negative k 0 := by
  have hc : compare (-k : Int) 0 = .lt := compare_lt_iff_lt.mpr (by omega)
  unfold UnpackedFloat.ofInt UnpackedFloat.normalize
  rw [hc]
  dsimp only
  rw [neg_neg, Int.toNat_natCast]

theorem unpack_round {k : Nat} (s : Sign) (hk : 0 < k) (hl : k < 2 ^ 64) :
    ∃ m e pos, UnpackedFloat.unpack Format.binary64 (UnpackedFloat.pack Format.binary64
      (UnpackedFloat.round Format.binary64 s k 0)) = .finite s m e pos ∧ (k.log2 : Int) - 52 ≤ e := by
  have hlog : k.log2 < 64 := (Nat.log2_lt (by omega)).mpr hl
  obtain ⟨m, e, pos, h, hn, he, he'⟩ := round_finite s hk
  rw [h]
  exact ⟨m, e, pos, unpack_pack s pos hn (by omega) (by omega), he⟩

section Comparisons

theorem compare_swap (u v : UnpackedFloat) : v.compare u = (u.compare v).map Ordering.swap := by
  have hf {m₁ m₂ : Nat} {e₁ e₂ : Int} : (compare e₂ e₁).then (compare m₂ m₁) =
      ((compare e₁ e₂).then (compare m₁ m₂)).swap := by
    rw [Ordering.swap_then, ← Std.OrientedOrd.eq_swap, ← Std.OrientedOrd.eq_swap]
  obtain ⟨_ | _⟩ | _ | ⟨_ | _⟩ | ⟨_ | _, _, _, _⟩ := u <;> obtain ⟨_ | _⟩ | _ | ⟨_ | _⟩ | ⟨_ | _, _, _, _⟩ := v
  all_goals first | rfl | exact congrArg some hf | exact congrArg (some <| ·.swap) hf

theorem isSome_compare {u v : UnpackedFloat} (hu : u.isFinite) (hv : v.isFinite) : (u.compare v).isSome := by
  obtain _ | _ | ⟨_ | _⟩ | ⟨_ | _, _, _, _⟩ := u <;> obtain _ | _ | ⟨_ | _⟩ | ⟨_ | _, _, _, _⟩ := v
  all_goals first | rfl | exact Bool.noConfusion hu | exact Bool.noConfusion hv

variable {x y : Float}

theorem lt_iff_compare : x < y ↔ x.toModel.unpack.compare y.toModel.unpack = some .lt := by
  change (decide _ = true) ↔ _
  rw [decide_eq_true_eq]
  change (_ == _) = true ↔ _
  exact beq_iff_eq

theorem le_iff_compare : x ≤ y ↔ ((x.toModel.unpack.compare y.toModel.unpack).any (·.isLE)) = true := by
  change (decide _ = true) ↔ _
  rw [decide_eq_true_eq]
  rfl

theorem not_lt_of_le (h : x ≤ y) : ¬y < x := by
  rw [le_iff_compare, compare_swap] at h
  rw [lt_iff_compare]
  intro hl
  rw [hl] at h
  cases h

-- The order of the finite numbers is total.
theorem le_of_not_lt (hx : x.isFinite) (hy : y.isFinite) (h : ¬x < y) : y ≤ x := by
  have hs : (x.toModel.unpack.compare y.toModel.unpack).isSome := isSome_compare hx hy
  rw [lt_iff_compare] at h
  rw [le_iff_compare, compare_swap]
  obtain ⟨o, ho⟩ := Option.isSome_iff_exists.mp hs
  rw [ho] at h ⊢
  cases o
  case lt => exact absurd rfl h
  case eq => rfl
  case gt => rfl

end Comparisons

-- The number that a float stands for.
def value (x : Float) : Option ℚ :=
  match x.toModel.unpack with
  | .zero _         => some 0
  | .finite s m e _ => some <| s.apply m * 2 ^ e
  | _               => none

theorem isSome_value {x : Float} (h : x.isFinite) : (value x).isSome := by
  have hx : x.toModel.unpack.isFinite := h
  rw [value]
  cases hu : x.toModel.unpack
  case zero   => rfl
  case finite => rfl
  all_goals
    rw [hu] at hx
    cases hx

section Conversions

theorem unpack_uint64 {n : UInt64} (h : 0 < n.toNat) :
    ∃ m e pos, n.toFloat.toModel.unpack = .finite .positive m e pos ∧ (n.toNat.log2 : Int) - 52 ≤ e := by
  have hf : n.toFloat.toModel.unpack = UnpackedFloat.unpack Format.binary64 (UnpackedFloat.pack Format.binary64
    (UnpackedFloat.ofInt Format.binary64 n.toNat)) := rfl
  rw [hf, ofInt_pos h]
  exact unpack_round .positive h n.toNat_lt

theorem isFinite_uint64 (n : UInt64) : n.toFloat.isFinite := by
  by_cases h : 0 < n.toNat
  case pos =>
    have ⟨m, e, pos, hf, _⟩ := unpack_uint64 h
    change n.toFloat.toModel.unpack.isFinite = true
    rw [hf]
    rfl
  case neg =>
    obtain rfl : n = 0 := UInt64.toNat_inj.mp <| Nat.eq_zero_of_not_pos h
    decide

theorem one_lt_uint64 {n : UInt64} (h : 2 ≤ n.toNat) : 1.0 < n.toFloat := by
  have ⟨m, e, pos, hf, he⟩ := unpack_uint64 (by omega : 0 < n.toNat)
  have hl : 1 ≤ n.toNat.log2 := (Nat.le_log2 (by omega)).mpr h
  have h1 : (1.0 : Float).toModel.unpack = .finite .positive (2 ^ 52) (-52) (by decide) := rfl
  have hc : compare (-52) e = .lt := compare_lt_iff_lt.mpr (by omega)
  rw [lt_iff_compare, hf, h1]
  change some ((compare (-52) e).then _) = _
  rw [hc]
  rfl

theorem value_uint64 {n : UInt64} (h : n.toNat ≤ 1) : value n.toFloat = some (n.toNat : ℚ) := by
  obtain h | h : n.toNat = 0 ∨ n.toNat = 1 := by omega
  case inl =>
    obtain rfl : n = 0 := UInt64.toNat_inj.mp h
    rfl
  case inr =>
    obtain rfl : n = 1 := UInt64.toNat_inj.mp h
    change some (((2 ^ 52 : Nat) : Int) * (2 : ℚ) ^ (-52 : Int)) = some ((1 : Nat) : ℚ)
    norm_num

theorem unpack_int64 {n : Int64} (h : n.toInt < 0) :
    ∃ m e pos, (Float.ofModel (.ofInt64 n)).toModel.unpack = .finite .negative m e pos := by
  obtain ⟨k, hk⟩ := Int.eq_ofNat_of_zero_le (by omega : 0 ≤ -n.toInt)
  have hl := n.le_toInt
  have hn : n.toInt = -k := by omega
  have hf : (Float.ofModel (.ofInt64 n)).toModel.unpack = UnpackedFloat.unpack Format.binary64
    (UnpackedFloat.pack Format.binary64 (UnpackedFloat.ofInt Format.binary64 n.toInt)) := rfl
  rw [hf, hn, ofInt_neg (by omega)]
  have ⟨m, e, pos, h, _⟩ := unpack_round .negative (by omega : 0 < k) (by omega)
  exact ⟨m, e, pos, h⟩

theorem int64_lt_zero {n : Int64} (h : n.toInt < 0) : Float.ofModel (.ofInt64 n) < 0.0 := by
  have ⟨m, e, pos, hf⟩ := unpack_int64 h
  rw [lt_iff_compare, hf]
  rfl

theorem isFinite_int64 {n : Int64} (h : n.toInt < 0) : (Float.ofModel (.ofInt64 n)).isFinite := by
  have ⟨m, e, pos, hf⟩ := unpack_int64 h
  change (Float.ofModel (.ofInt64 n)).toModel.unpack.isFinite = true
  rw [hf]
  rfl

end Conversions
end IntegerFloat
