import Mathlib.Data.UInt
import Mathlib.Data.Finset.Sort
import Mathlib.Algebra.BigOperators.Group.Finset.Basic
import Mathlib.Order.Interval.Finset.Nat

-- 64-bit masks read as finite sets of bit positions, and the loop that visits the set bits of a
-- mask by repeatedly clearing the lowest one.

open Finset

namespace BitMask

def hasBit (m : UInt64) (i : Nat) : Bool :=
  m.toBitVec.getLsbD i

-- The positions of the set bits.
def bits (m : UInt64) : Finset Nat :=
  (range 64).filter (hasBit m ·)

def countOnes (m : UInt64) : Nat :=
  (List.range 64).countP (hasBit m)

-- The position of the lowest set bit (64 for the empty mask).
def trailingZeros (m : UInt64) : Nat :=
  (List.range 64).find? (hasBit m) |>.getD 64

def single (v : Nat) : UInt64 :=
  1 <<< UInt64.ofNat v

-- The complement of the bits `0, ..., v`.
def higher (v : Nat) : UInt64 :=
  ~~~(single (v + 1) - 1)

def clearLowest (m : UInt64) : UInt64 :=
  m &&& (m - 1)

theorem hasBit_eq_testBit (m : UInt64) (i : Nat) : hasBit m i = m.toNat.testBit i :=
  rfl

theorem lt_of_hasBit {m : UInt64} {i : Nat} (h : hasBit m i) : i < 64 :=
  BitVec.lt_of_getLsbD h

theorem mem_bits {m : UInt64} {i : Nat} : i ∈ bits m ↔ hasBit m i := by
  simp only [bits, mem_filter, mem_range, and_iff_right_iff_imp]
  exact lt_of_hasBit

theorem ext {m₁ m₂ : UInt64} (h : ∀ i, i < 64 → hasBit m₁ i = hasBit m₂ i) : m₁ = m₂ :=
  UInt64.toBitVec_inj.mp <| BitVec.eq_of_getLsbD_eq h

@[simp]
theorem hasBit_zero (i : Nat) : hasBit 0 i = false := by
  simp [hasBit]

@[simp]
theorem hasBit_and (m₁ m₂ : UInt64) (i : Nat) : hasBit (m₁ &&& m₂) i = (hasBit m₁ i && hasBit m₂ i) := by
  simp [hasBit]

@[simp]
theorem hasBit_or (m₁ m₂ : UInt64) (i : Nat) : hasBit (m₁ ||| m₂) i = (hasBit m₁ i || hasBit m₂ i) := by
  simp [hasBit]

@[simp]
theorem hasBit_xor (m₁ m₂ : UInt64) (i : Nat) : hasBit (m₁ ^^^ m₂) i = (hasBit m₁ i ^^ hasBit m₂ i) := by
  simp [hasBit]

@[simp]
theorem hasBit_not (m : UInt64) (i : Nat) : hasBit (~~~m) i = (decide (i < 64) && !hasBit m i) := by
  simp [hasBit]

theorem toNat_single {v : Nat} (h : v < 64) : (single v).toNat = 2 ^ v := by
  have hv : v % 2 ^ 64 % 64 = v := by omega
  simp only [single, UInt64.toNat_shiftLeft, UInt64.toNat_ofNat', hv, Nat.shiftLeft_eq]
  simpa using Nat.pow_lt_pow_right (by decide : 1 < 2) h

theorem hasBit_single {v : Nat} (h : v < 64) (i : Nat) : hasBit (single v) i = decide (i = v) := by
  rw [hasBit_eq_testBit, toNat_single h, Nat.testBit_two_pow]
  simp [eq_comm]

theorem hasBit_single_sub_one {v : Nat} (h : v < 64) (i : Nat) :
    hasBit (single v - 1) i = decide (i < v) := by
  have h₁ : (1 : UInt64) ≤ single v := by
    simp [UInt64.le_iff_toNat_le, toNat_single h, Nat.one_le_two_pow]
  rw [hasBit_eq_testBit, UInt64.toNat_sub_of_le _ _ h₁, toNat_single h]
  exact Nat.testBit_two_pow_sub_one ..

theorem hasBit_higher {v : Nat} (h : v < 63) (i : Nat) : hasBit (higher v) i = decide (v < i ∧ i < 64) := by
  rw [higher, hasBit_not, hasBit_single_sub_one (by omega)]
  by_cases hi : i < v + 1 <;> simp [hi] <;> omega

theorem and_single_ne_zero {m : UInt64} {v : Nat} (h : v < 64) : (m &&& single v != 0) = hasBit m v := by
  cases hm : hasBit m v
  case true =>
    simp only [bne_iff_ne, ne_eq]
    intro hz
    have := congrArg (hasBit · v) hz
    simp [hm, hasBit_single h] at this
  case false =>
    simp only [bne_eq_false_iff_eq]
    refine ext fun i _ => ?_
    by_cases hi : i = v <;> simp [hasBit_single h, hi, hm]

theorem bits_eq_empty_iff {m : UInt64} : bits m = ∅ ↔ m = 0 := by
  constructor <;> intro h
  case mp =>
    refine ext fun i _ => ?_
    simpa [h] using (mem_bits (m := m) (i := i)).not.mp
  case mpr => subst h; simp [bits]

theorem card_bits_le (m : UInt64) : #(bits m) ≤ 64 :=
  card_filter_le _ _ |>.trans (card_range _).le

theorem countOnes_eq (m : UInt64) : countOnes m = #(bits m) := by
  show _ = ((List.range 64 : Multiset Nat).filter (hasBit m ·)).card
  simp only [countOnes, List.countP_eq_length_filter, Multiset.filter_coe, Multiset.coe_card, Bool.decide_eq_true]

section Lowest

variable {m : UInt64}

theorem hasBit_trailingZeros (h : m ≠ 0) : hasBit m (trailingZeros m) := by
  have ⟨i, hi⟩ := nonempty_iff_ne_empty.mpr <| bits_eq_empty_iff.not.mpr h
  replace hi := mem_bits.mp hi
  cases hf : (List.range 64).find? (hasBit m)
  case none   => exact absurd hi <| List.find?_eq_none.mp hf i <| List.mem_range.mpr (lt_of_hasBit hi)
  case some t => simpa [trailingZeros, hf] using List.find?_some hf

theorem trailingZeros_le {i : Nat} (h : hasBit m i) : trailingZeros m ≤ i := by
  cases hf : (List.range 64).find? (hasBit m)
  case none   => exact absurd h <| List.find?_eq_none.mp hf i <| List.mem_range.mpr (lt_of_hasBit h)
  case some t =>
    simp only [trailingZeros, hf, Option.getD_some]
    by_contra hlt
    have := (List.find?_range_eq_some.mp hf).2.2 i (by omega)
    simp [h] at this

-- Subtracting one borrows from the lowest set bit `t`, so the bits above `t` survive the
-- conjunction and `t` itself does not.
theorem testBit_and_sub_one {x t : Nat} (ht : x.testBit t) (hl : ∀ i < t, x.testBit i = false) (i : Nat) :
    (x &&& (x - 1)).testBit i = (x.testBit i && decide (i ≠ t)) := by
  have hd : 2 ^ t ∣ x := by
    refine Nat.dvd_of_mod_eq_zero <| Nat.eq_of_testBit_eq fun i => ?_
    by_cases hi : i < t <;> simp [Nat.testBit_mod_two_pow, hi, hl]
  obtain ⟨y, rfl⟩ := hd
  rw [Nat.testBit_two_pow_mul] at ht
  obtain ⟨q, rfl⟩ : ∃ q, y = 2 * q + 1 := ⟨y / 2, by simp at ht; omega⟩
  have hp := Nat.two_pow_pos t
  have hx : 2 ^ t * (2 * q + 1) - 1 = 2 ^ t * (2 * q) + (2 ^ t - 1) := by
    rw [Nat.mul_add]; omega
  rw [Nat.testBit_and, hx, Nat.testBit_two_pow_mul_add _ (by omega), Nat.testBit_two_pow_mul]
  rcases Nat.lt_trichotomy i t with h | h | h
  case inl        => simp [h]
  case inr.inl    => subst h; simp
  case inr.inr    =>
    obtain ⟨s, rfl⟩ : ∃ s, i = t + (s + 1) := ⟨i - t - 1, by omega⟩
    have h₁ : (2 * q + 1) / 2 = q := by omega
    simp only [Nat.testBit_succ, Nat.add_sub_cancel_left, h₁]
    simp [show ¬(t + (s + 1) < t) by omega]

theorem hasBit_clearLowest (h : m ≠ 0) (i : Nat) :
    hasBit (clearLowest m) i = (hasBit m i && decide (i ≠ trailingZeros m)) := by
  have h₁ : (1 : UInt64) ≤ m := by
    have : m.toNat ≠ 0 := fun h₀ => h (UInt64.toNat_inj.mp h₀)
    simp only [UInt64.le_iff_toNat_le, UInt64.reduceToNat]
    omega
  have hl (i) (hi : i < trailingZeros m) : m.toNat.testBit i = false := by
    by_contra hc
    exact absurd (trailingZeros_le (m := m) (by simpa [hasBit_eq_testBit] using hc)) (by omega)
  rw [clearLowest, hasBit_eq_testBit, UInt64.toNat_and, UInt64.toNat_sub_of_le _ _ h₁]
  exact testBit_and_sub_one (hasBit_trailingZeros h) hl i

theorem bits_eq_insert (h : m ≠ 0) : bits m = insert (trailingZeros m) (bits (clearLowest m)) := by
  ext i
  simp only [mem_insert, mem_bits, hasBit_clearLowest h, Bool.and_eq_true, decide_eq_true_eq]
  have := hasBit_trailingZeros h
  grind

theorem trailingZeros_lt {i : Nat} (h : m ≠ 0) (hi : i ∈ bits (clearLowest m)) : trailingZeros m < i := by
  rw [mem_bits, hasBit_clearLowest h] at hi
  simp at hi
  exact lt_of_le_of_ne (trailingZeros_le hi.1) (Ne.symm hi.2)

theorem trailingZeros_not_mem (h : m ≠ 0) : trailingZeros m ∉ bits (clearLowest m) :=
  (lt_irrefl _ <| trailingZeros_lt h ·)

end Lowest

-- `while mask != 0 { v = mask.trailing_zeros(); mask &= mask - 1; body }`, with the mask that is left
-- and the position just cleared passed to the body. A mask has 64 bits, so the loop runs at most 64
-- times.
def forBits (mask : UInt64) (acc : σ) (body : σ → UInt64 → Nat → σ) : σ :=
  go 64 mask acc
where
  go : Nat → UInt64 → σ → σ
    | 0,        _,    acc => acc
    | fuel + 1, mask, acc =>
      if mask = 0 then acc
      else go fuel (clearLowest mask) (body acc (clearLowest mask) (trailingZeros mask))

-- The loop rule: an assertion about the set of bits still to visit and the accumulator.
theorem forBits_rule {body : σ → UInt64 → Nat → σ} (P : Finset Nat → σ → Prop)
    (step : ∀ rest v acc, (∀ w ∈ bits rest, v < w) → P (insert v (bits rest)) acc →
      P (bits rest) (body acc rest v))
    {mask acc} (h : P (bits mask) acc) : P ∅ (forBits mask acc body) := by
  suffices hg : ∀ fuel mask acc, #(bits mask) ≤ fuel → P (bits mask) acc →
      P ∅ (forBits.go body fuel mask acc) from hg 64 mask acc (card_bits_le mask) h
  intro fuel
  induction fuel
  case zero =>
    intro mask acc hc hp
    rw [card_eq_zero.mp <| Nat.le_zero.mp hc] at hp
    exact hp
  case succ fuel hi =>
    intro mask acc hc hp
    rw [forBits.go]
    split
    case isTrue hm  => exact bits_eq_empty_iff.mpr hm ▸ hp
    case isFalse hm =>
      rw [bits_eq_insert hm] at hc hp
      rw [card_insert_of_notMem (trailingZeros_not_mem hm)] at hc
      exact hi _ _ (by omega) <| step _ _ _ (fun _ => trailingZeros_lt hm) hp

-- A loop that collects the set bits, in increasing order.
theorem forBits_collect (f : Nat → α) (mask : UInt64) :
    forBits mask [] (fun acc _ v => acc ++ [f v]) = (bits mask).sort.map f := by
  let P (todo : Finset Nat) (acc : List α) : Prop := acc ++ todo.sort.map f = (bits mask).sort.map f
  suffices h : P ∅ (forBits mask [] fun acc _ v => acc ++ [f v]) by simpa [P] using h
  refine forBits_rule P (fun rest v acc hv hp => ?_) rfl
  have hn : v ∉ bits rest := fun hc => lt_irrefl _ (hv _ hc)
  unfold P at hp ⊢
  rw [← hp, sort_insert (· ≤ ·) (fun w hw => (hv w hw).le) hn, List.map_cons, List.append_assoc, List.singleton_append]

-- A loop that adds up a quantity depending on the bit visited and the bits still to visit.
theorem forBits_sum [AddCommMonoid M] {mask : UInt64} {body : M → UInt64 → Nat → M} (G : Finset Nat → Nat → M)
    (hb : ∀ acc rest v, v ∈ bits mask → bits rest ⊆ bits mask → body acc rest v = acc + G (bits rest) v)
    (acc : M) : forBits mask acc body = acc + ∑ v ∈ bits mask, G {w ∈ bits mask | v < w} v := by
  let total := acc + ∑ v ∈ bits mask, G {w ∈ bits mask | v < w} v
  let P (todo : Finset Nat) (acc : M) : Prop :=
    todo ⊆ bits mask ∧ acc + ∑ v ∈ todo, G {w ∈ todo | v < w} v = total
  suffices h : P ∅ (forBits mask acc body) by simpa [P] using h.2
  refine forBits_rule P ?_ ⟨Subset.rfl, rfl⟩
  intro rest v acc hv ⟨hs, hp⟩
  have ⟨hm, hs⟩ := insert_subset_iff.mp hs
  have hn : v ∉ bits rest := fun hc => lt_irrefl _ (hv _ hc)
  have hf : {w ∈ insert v (bits rest) | v < w} = bits rest := by
    ext w; simp; grind
  have hr : ∑ w ∈ bits rest, G {x ∈ insert v (bits rest) | w < x} w = ∑ w ∈ bits rest, G {x ∈ bits rest | w < x} w :=
    sum_congr rfl fun w hw => by rw [filter_insert, if_neg (not_lt.mpr (hv w hw).le)]
  refine ⟨hs, ?_⟩
  rw [← hp, hb _ _ _ hm hs, add_assoc, sum_insert hn, hf, hr]

-- A loop whose iterations each establish the assertion `read`, depending on the bit visited and the
-- bits still to visit, or leave it as it is.
theorem forBits_or {mask : UInt64} {body : σ → UInt64 → Nat → σ} (I read : σ → Prop)
    (touches : Finset Nat → Nat → Prop)
    (hb : ∀ acc rest v, v ∈ bits mask → bits rest ⊆ bits mask → (∀ w ∈ bits rest, v < w) → I acc →
      I (body acc rest v) ∧ (read (body acc rest v) ↔ read acc ∨ touches (bits rest) v)) {acc : σ} (hi : I acc) :
    I (forBits mask acc body) ∧
      (read (forBits mask acc body) ↔ read acc ∨ ∃ v ∈ bits mask, touches {w ∈ bits mask | v < w} v) := by
  let all := read acc ∨ ∃ v ∈ bits mask, touches {w ∈ bits mask | v < w} v
  let P (todo : Finset Nat) (acc : σ) : Prop :=
    todo ⊆ bits mask ∧ I acc ∧ (read acc ∨ (∃ v ∈ todo, touches {w ∈ todo | v < w} v) ↔ all)
  suffices h : P ∅ (forBits mask acc body) by simpa [P, all] using h.2
  refine forBits_rule P ?_ ⟨Subset.rfl, hi, .rfl⟩
  intro rest v acc hv ⟨hs, hi, hp⟩
  have ⟨hm, hs⟩ := insert_subset_iff.mp hs
  have ⟨hi, hr⟩ := hb acc rest v hm hs hv hi
  have hf : {w ∈ insert v (bits rest) | v < w} = bits rest := by
    ext w; simp; grind
  have ht : (∃ w ∈ bits rest, touches {x ∈ insert v (bits rest) | w < x} w) ↔
      ∃ w ∈ bits rest, touches {x ∈ bits rest | w < x} w :=
    exists_congr fun w => and_congr_right fun hw => by rw [filter_insert, if_neg (not_lt.mpr (hv w hw).le)]
  refine ⟨hs, hi, ?_⟩
  rw [← hp, hr, exists_mem_insert, hf, ht, or_assoc]

-- A loop whose iterations can fail, but do not.
theorem forBits_some (P : σ → Prop) {mask : UInt64} {body : σ → UInt64 → Nat → σ}
    {body? : Option σ → UInt64 → Nat → Option σ}
    (hb : ∀ acc rest v, v ∈ bits mask → bits rest ⊆ bits mask → P acc →
      body? (some acc) rest v = some (body acc rest v) ∧ P (body acc rest v)) {acc : σ} (hp : P acc) :
    forBits mask (some acc) body? = some (forBits mask acc body) ∧ P (forBits mask acc body) := by
  suffices hg : ∀ fuel rest acc, bits rest ⊆ bits mask → P acc →
      forBits.go body? fuel rest (some acc) = some (forBits.go body fuel rest acc) ∧
        P (forBits.go body fuel rest acc) from hg 64 mask acc Subset.rfl hp
  intro fuel
  induction fuel
  case zero => exact fun _ _ _ hp => ⟨rfl, hp⟩
  case succ fuel hi =>
    intro rest acc hs hp
    rw [forBits.go, forBits.go]
    split
    case isTrue     => exact ⟨rfl, hp⟩
    case isFalse hm =>
      rw [bits_eq_insert hm] at hs
      obtain ⟨hv, hs⟩ := insert_subset_iff.mp hs
      obtain ⟨he, hp⟩ := hb acc (clearLowest rest) (trailingZeros rest) hv hs hp
      rw [he]
      exact hi _ _ hs hp

-- A loop whose iterations keep the assertion `read`, one of which establishes it.
theorem forBits_establishes {mask : UInt64} {body : σ → UInt64 → Nat → σ} (read : σ → Prop)
    (touches : Finset Nat → Nat → Prop) (keep : ∀ acc rest v, read acc → read (body acc rest v))
    (hit : ∀ acc rest v, v ∈ bits mask → touches (bits rest) v → read (body acc rest v))
    (ht : ∃ v ∈ bits mask, touches {w ∈ bits mask | v < w} v) (acc : σ) : read (forBits mask acc body) := by
  let P (todo : Finset Nat) (acc : σ) : Prop :=
    todo ⊆ bits mask ∧ (read acc ∨ ∃ v ∈ todo, touches {w ∈ todo | v < w} v)
  suffices h : P ∅ (forBits mask acc body) by simpa [P] using h.2
  refine forBits_rule P ?_ ⟨Subset.rfl, .inr ht⟩
  intro rest v acc hv ⟨hs, hp⟩
  have ⟨hm, hs⟩ := insert_subset_iff.mp hs
  refine ⟨hs, ?_⟩
  rcases hp with hp | ⟨w, hw, ht⟩
  case inl => exact .inl <| keep _ _ _ hp
  case inr =>
    have hf : {x ∈ insert v (bits rest) | v < x} = bits rest := by
      ext x; simp; grind
    rcases mem_insert.mp hw with rfl | hw
    case inl => exact .inl <| hit _ _ _ hm <| hf ▸ ht
    case inr =>
      rw [filter_insert, if_neg (not_lt.mpr (hv w hw).le)] at ht
      exact .inr ⟨w, hw, ht⟩

-- Numbers modulo `2 ^ 64` add up as numbers do.
def ofNatHom : Nat →+ UInt64 where
  toFun     := .ofNat
  map_zero' := rfl
  map_add'  := UInt64.ofNat_add

end BitMask
