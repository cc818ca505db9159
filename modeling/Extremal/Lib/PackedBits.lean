import Mathlib.Data.List.Basic
import Mathlib.Tactic.IntervalCases

-- Bit vectors packed into bytes, most significant bit first.

namespace PackedBits

def byteGet (b : UInt8) (t : Nat) : Bool :=
  (b >>> UInt8.ofNat t) &&& 1 == 1

def byteSet (b : UInt8) (t : Nat) (value : Bool) : UInt8 :=
  if value then b ||| (1 <<< UInt8.ofNat t) else b &&& ~~~(1 <<< UInt8.ofNat t)

def get (bits : List UInt8) (idx : Nat) : Bool :=
  byteGet (bits.getD (idx / 8) 0) (7 - idx % 8)

def set (bits : List UInt8) (idx : Nat) (value : Bool) : List UInt8 :=
  bits.modify (idx / 8) (byteSet · (7 - idx % 8) value)

@[simp]
theorem length_set (bits : List UInt8) (idx : Nat) (value : Bool) :
    (set bits idx value).length = bits.length := by
  simp [set]

-- There are eight positions and 256 bytes to check.
theorem byteGet_eq (b : UInt8) {t : Nat} (h : t < 8) : byteGet b t = b.toBitVec.getLsbD t := by
  obtain ⟨⟨b⟩⟩ := b
  interval_cases t <;> revert b <;> decide +kernel

theorem getLsbD_one_shiftLeft {s t : Nat} (hs : s < 8) (ht : t < 8) :
    ((1 : UInt8) <<< UInt8.ofNat t).toBitVec.getLsbD s = decide (t = s) := by
  interval_cases s <;> interval_cases t <;> decide

theorem byteGet_byteSet (b : UInt8) {s t : Nat} (hs : s < 8) (ht : t < 8) (value : Bool) :
    byteGet (byteSet b t value) s = if t = s then value else byteGet b s := by
  rw [byteGet_eq _ hs, byteGet_eq _ hs, byteSet]
  cases value
  case false =>
    simp only [Bool.false_eq_true, if_false, UInt8.toBitVec_and, UInt8.toBitVec_not, BitVec.getLsbD_and,
      BitVec.getLsbD_not, getLsbD_one_shiftLeft hs ht, hs]
    by_cases h : t = s <;> simp [h]
  case true =>
    simp only [if_true, UInt8.toBitVec_or, BitVec.getLsbD_or, getLsbD_one_shiftLeft hs ht]
    by_cases h : t = s <;> simp [h]

theorem byte_ext {a b : UInt8} (h : ∀ t < 8, byteGet a t = byteGet b t) : a = b := by
  refine UInt8.toBitVec_inj.mp <| BitVec.eq_of_getLsbD_eq fun t ht => ?_
  rw [← byteGet_eq a ht, ← byteGet_eq b ht, h t ht]

theorem get_set {bits : List UInt8} {idx : Nat} (h : idx < 8 * bits.length) (value : Bool) (k : Nat) :
    get (set bits idx value) k = if idx = k then value else get bits k := by
  have hb : idx / 8 < bits.length := by omega
  simp only [get, set, List.getD_eq_getElem?_getD, List.getElem?_modify]
  by_cases hq : idx / 8 = k / 8
  case pos =>
    have hk : k / 8 < bits.length := hq ▸ hb
    simp only [hq, hk, getElem?_pos, if_true, Option.map_eq_map, Option.map_some, Option.getD_some]
    rw [byteGet_byteSet _ (by omega) (by omega)]
    congr 1
    exact propext ⟨fun _ => by omega, fun _ => by omega⟩
  case neg =>
    have hne : idx ≠ k := fun he => hq (he ▸ rfl)
    simp [hq, hne]

theorem get_of_getD_eq_zero {bits : List UInt8} {k : Nat} (h : bits.getD (k / 8) 0 = 0) : get bits k = false := by
  have hz : ∀ t < 8, byteGet 0 t = false := by decide
  rw [get, h]
  exact hz _ (by omega)

theorem get_replicate_zero (n k : Nat) : get (List.replicate n 0) k = false := by
  refine get_of_getD_eq_zero ?_
  simp [List.getD_eq_getElem?_getD, List.getElem?_replicate]
  split <;> rfl

theorem get_of_le {bits : List UInt8} {k : Nat} (h : 8 * bits.length ≤ k) : get bits k = false :=
  get_of_getD_eq_zero <| by rw [List.getD_eq_getElem?_getD, List.getElem?_eq_none (by omega), Option.getD_none]

-- There are 256 bytes to check.
theorem countP_byteGet (b : UInt8) :
    (List.range 8).countP (fun k => byteGet b (7 - k)) = (List.range 8).countP b.toBitVec.getLsbD := by
  obtain ⟨⟨b⟩⟩ := b
  revert b
  decide +kernel

-- The ones in the bytes are the positions that are set.
theorem sum_countP (bits : List UInt8) :
    (bits.map fun b => (List.range 8).countP b.toBitVec.getLsbD).sum =
      (List.range (8 * bits.length)).countP (get bits) := by
  induction bits
  case nil => rfl
  case cons b bits ih =>
    have hb : (List.range 8).countP (get (b :: bits)) = (List.range 8).countP b.toBitVec.getLsbD := by
      rw [← countP_byteGet]
      refine List.countP_congr fun k hk => ?_
      have hk := List.mem_range.mp hk
      have h₀ : k / 8 = 0 := by omega
      simp only [get, h₀, Nat.mod_eq_of_lt hk, List.getD_cons_zero]
    have hr : get (b :: bits) ∘ (8 + ·) = get bits := by
      funext k
      have h₁ : (8 + k) / 8 = k / 8 + 1 := by omega
      simp only [Function.comp_apply, get, h₁, Nat.add_mod_left, List.getD_cons_succ]
    rw [List.map_cons, List.sum_cons, ih, List.length_cons, Nat.mul_succ, Nat.add_comm (8 * _), List.range_add,
      List.countP_append, hb, List.countP_map, hr]

theorem ext {as bs : List UInt8} (hl : as.length = bs.length)
    (h : ∀ k < 8 * as.length, get as k = get bs k) : as = bs := by
  refine List.ext_getElem hl fun i ha hb => byte_ext fun t ht => ?_
  have hk := h (8 * i + (7 - t)) (by omega)
  have hd : (8 * i + (7 - t)) / 8 = i := by omega
  have hm : 7 - (8 * i + (7 - t)) % 8 = t := by omega
  rw [get, get, hd, hm] at hk
  simpa [ha, hb] using hk

end PackedBits
