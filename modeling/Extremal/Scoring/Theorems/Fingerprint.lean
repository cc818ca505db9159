import Mathlib.Data.Nat.ModEq
import Extremal.Graph.Theorems.Adjacency
import Extremal.Scoring.Clique

open BitMask

-- The words have the same lowest `i` bits.
def Agree (i : Nat) (x y : UInt64) : Prop :=
  ∀ j < i, hasBit x j = hasBit y j

section Agree

variable {i k : Nat} {x y m c : UInt64}

theorem Agree.refl (i : Nat) (x : UInt64) : Agree i x x :=
  fun _ _ => rfl

theorem agree_iff_modEq : Agree i x y ↔ x.toNat ≡ y.toNat [MOD 2 ^ i] := by
  constructor
  case mp =>
    refine fun h => Nat.eq_of_testBit_eq fun j => ?_
    by_cases hj : j < i <;> simp only [Nat.testBit_mod_two_pow, hj, decide_true, decide_false, Bool.true_and, Bool.false_and]
    exact h j hj
  case mpr =>
    intro h j hj
    have := congrArg (·.testBit j) h
    simp only [Nat.testBit_mod_two_pow, hj, decide_true, Bool.true_and] at this
    exact this

theorem agree_xor_right : Agree i (x ^^^ m) (y ^^^ m) ↔ Agree i x y := by
  simp [Agree]

-- Factors that are odd can be cancelled modulo powers of two.
theorem agree_mul_right (hi : i ≤ 64) (hc : c.toNat % 2 = 1) : Agree i (x * c) (y * c) ↔ Agree i x y := by
  have hd : 2 ^ i ∣ 2 ^ 64 := Nat.pow_dvd_pow 2 hi
  have hg : Nat.gcd (2 ^ i) c.toNat = 1 := Nat.Coprime.pow_left i <| by rw [Nat.coprime_iff_gcd_eq_one, Nat.gcd_rec, hc, Nat.gcd_one_left]
  simp only [agree_iff_modEq, Nat.ModEq, UInt64.toNat_mul, Nat.mod_mod_of_dvd _ hd]
  exact ⟨Nat.ModEq.cancel_right_of_coprime hg, fun h => Nat.ModEq.mul_right _ h⟩

theorem agree_xor_single (hk : k < 64) (hi : i ≤ k) : Agree i x (y ^^^ single k) ↔ Agree i x y := by
  refine forall₂_congr fun j hj => ?_
  rw [hasBit_xor, hasBit_single hk, decide_eq_false (by omega), Bool.xor_false]

theorem not_agree_xor_single (hk : k < 64) (h : Agree (k + 1) x y) : ¬Agree (k + 1) x (y ^^^ single k) := by
  intro hc
  have := hc k k.lt_succ_self
  rw [h k k.lt_succ_self, hasBit_xor, hasBit_single hk, decide_eq_true rfl, Bool.xor_true] at this
  exact Bool.not_ne_self _ this.symm

end Agree

section Step

-- One round of the hash.
def fingerprintStep (h m : UInt64) : UInt64 :=
  (h ^^^ m) * 0x100000001b3

variable {i k : Nat} {x y m : UInt64}

theorem agree_step (hi : i ≤ 64) : Agree i (fingerprintStep x m) (fingerprintStep y m) ↔ Agree i x y := by
  rw [fingerprintStep, fingerprintStep, agree_mul_right hi (by decide), agree_xor_right]

theorem agree_foldl (hi : i ≤ 64) (masks : List UInt64) :
    Agree i (masks.foldl fingerprintStep x) (masks.foldl fingerprintStep y) ↔ Agree i x y := by
  induction masks generalizing x y
  case nil          => rfl
  case cons m ms ih => rw [List.foldl_cons, List.foldl_cons, ih, agree_step hi]

-- A round in which the masks differ in bit `k` keeps the bits below it, and changes bit `k`.

theorem agree_step_single (hk : k < 64) (hi : i ≤ k) :
    Agree i (fingerprintStep x m) (fingerprintStep y (m ^^^ single k)) ↔ Agree i x y := by
  rw [fingerprintStep, fingerprintStep, agree_mul_right (by omega) (by decide), ← UInt64.xor_assoc,
    agree_xor_single hk hi, agree_xor_right]

theorem not_agree_step_single (hk : k < 64) (h : Agree (k + 1) x y) :
    ¬Agree (k + 1) (fingerprintStep x m) (fingerprintStep y (m ^^^ single k)) := by
  rw [fingerprintStep, fingerprintStep, agree_mul_right (by omega) (by decide), ← UInt64.xor_assoc]
  exact not_agree_xor_single hk <| agree_xor_right.mpr h

end Step

theorem fastFingerprint_eq (masks : List UInt64) :
    fastFingerprint masks = masks.foldl fingerprintStep 0xcbf29ce484222325 :=
  rfl

theorem modify_append_cons {f : α → α} {a : α} (l r : List α) : (l ++ a :: r).modify l.length f = l ++ f a :: r := by
  induction l
  case nil          => rfl
  case cons b l ih  => simpa using ih

theorem exists_append_cons {l : List α} {i : Nat} (h : i < l.length) : ∃ l₁ a l₂, l = l₁ ++ a :: l₂ ∧ l₁.length = i :=
  ⟨l.take i, l[i], l.drop (i + 1), by simp, by simp; omega⟩

-- Between the two touched masks the hashes agree below bit `v`, and behind the second one they differ in
-- a bit up to `u`.
theorem fastFingerprint_touched_ne (front middle rest : List UInt64) (m n : UInt64) {u v : Nat} (hlt : u < v)
    (hv : v < 64) :
    fastFingerprint (front ++ (m ^^^ single v) :: (middle ++ (n ^^^ single u) :: rest)) ≠
      fastFingerprint (front ++ m :: (middle ++ n :: rest)) := by
  simp only [fastFingerprint_eq, List.foldl_append, List.foldl_cons]
  generalize front.foldl fingerprintStep 0xcbf29ce484222325 = h
  have h₁ : Agree (u + 1) (fingerprintStep h m) (fingerprintStep h (m ^^^ single v)) :=
    agree_step_single hv (by omega) |>.mpr (Agree.refl _ _)
  have h₂ := agree_foldl (by omega) middle |>.mpr h₁
  have h₃ := not_agree_step_single (m := n) (by omega) h₂
  have h₄ := agree_foldl (by omega) rest |>.not.mpr h₃
  intro he
  rw [he] at h₄
  exact h₄ (Agree.refl _ _)

theorem fastFingerprint_flip_lt {masks : List UInt64} (hl : masks.length ≤ 64) {u v : Nat} (hlt : u < v)
    (hv : v < masks.length) : fastFingerprint (NeighborSet.flipEdge ⟨masks⟩ u v).masks ≠ fastFingerprint masks := by
  obtain ⟨front, m, tail, rfl, rfl⟩ := exists_append_cons (hlt.trans hv)
  obtain ⟨middle, n, rest, rfl, hm⟩ := exists_append_cons (l := tail) (i := v - (front.length + 1)) (by simp at hv; omega)
  have hv' : v = (front ++ (m ^^^ single v) :: middle).length := by simp; omega
  have hf : (NeighborSet.flipEdge ⟨front ++ m :: (middle ++ n :: rest)⟩ front.length v).masks =
      front ++ (m ^^^ single v) :: (middle ++ (n ^^^ single front.length) :: rest) := by
    simp only [NeighborSet.flipEdge, modify_append_cons]
    have := modify_append_cons (f := (· ^^^ single front.length)) (a := n) (front ++ (m ^^^ single v) :: middle) rest
    rw [← hv'] at this
    simpa using this
  rw [hf]
  exact fastFingerprint_touched_ne front middle rest m n hlt (by omega)

theorem flipEdge_comm (nbrs : NeighborSet) (u v : Nat) : nbrs.flipEdge u v = nbrs.flipEdge v u := by
  refine congrArg NeighborSet.mk <| List.ext_getElem? fun i => ?_
  simp only [List.getElem?_modify]
  by_cases hu : u = i <;> by_cases hv : v = i <;> simp [hu, hv]

-- A single flip changes the fingerprint.
theorem fastFingerprint_flipEdge_ne {nbrs : NeighborSet} (hl : nbrs.masks.length ≤ 64) {u v : Nat} (hn : u ≠ v)
    (hu : u < nbrs.masks.length) (hv : v < nbrs.masks.length) :
    fastFingerprint (nbrs.flipEdge u v).masks ≠ fastFingerprint nbrs.masks := by
  rcases Nat.lt_or_gt_of_ne hn with h | h
  · exact fastFingerprint_flip_lt hl h hv
  · rw [flipEdge_comm]
    exact fastFingerprint_flip_lt hl h hu
