import Extremal.Scoring.Score

open Std Lexicographic PositiveFloat

namespace GraphScore

-- The scores that the ordering is meant for: the tiers are those of increasing clique sizes from 3
-- upwards, and the group order is a positive number.
structure Valid (score : GraphScore) : Prop where
  increasing : score.histogram.tiers.Pairwise (·.k < ·.k)
  atLeast    : ∀ t ∈ score.histogram.tiers, 3 ≤ t.k
  positive   : 0.0 < score.autOrder

-- No tier lies above `M`.
def Below (score : GraphScore) (M : Nat) : Prop :=
  ∀ t ∈ score.histogram.tiers, t.k ≤ M

-- The scores agree in all components that are compared.
structure SameKey (a b : GraphScore) : Prop where
  tiers      : ∀ k, a.tierKeyAt k = b.tierKeyAt k
  goodmanGap : a.goodmanGap = b.goodmanGap
  autOrder   : a.autOrder = b.autOrder
  cid        : a.cid = b.cid

section Tiers

variable {a b : GraphScore} {M M' : Nat}

theorem Below.mono (h : a.Below M) (hM : M ≤ M') : a.Below M' :=
  fun t ht => (h t ht).trans hM

theorem Below.tierKeyAt (h : a.Below M) {k : Nat} (hk : M < k) : a.tierKeyAt k = (0, 0) := by
  have : a.histogram.tier k = none := by
    refine List.find?_eq_none.mpr fun t ht => ?_
    have := h t ht
    simp
    omega
  rw [GraphScore.tierKeyAt, this]

theorem tierKeyAt_of_lt (h : a.Valid) {k : Nat} (hk : k < 3) : a.tierKeyAt k = (0, 0) := by
  have : a.histogram.tier k = none := by
    refine List.find?_eq_none.mpr fun t ht => ?_
    have := h.atLeast t ht
    simp
    omega
  rw [GraphScore.tierKeyAt, this]

theorem Valid.below_maxK (h : a.Valid) : a.Below (a.histogram.maxK.getD 2) := by
  intro t ht
  obtain ⟨tiers, last, he⟩ : ∃ tiers last, a.histogram.tiers = tiers ++ [last] :=
    ⟨_, _, (List.dropLast_append_getLast (List.ne_nil_of_mem ht)).symm⟩
  have hi := h.increasing
  rw [he] at ht hi
  have hl : a.histogram.maxK = some last.k := by simp [CliqueHistogram.maxK, he]
  rw [hl, Option.getD_some]
  rcases List.mem_append.mp ht with ht | ht
  · exact (List.pairwise_append.mp hi).2.2 t ht last (by simp) |>.le
  · simp at ht
    rw [ht]

-- All tiers up to `M` as one list of words.
def tierWords (score : GraphScore) (M : Nat) : List UInt64 :=
  (tiersDown M).flatMap fun k => [(score.tierKeyAt k).1, (score.tierKeyAt k).2]

theorem length_tierWords (a b : GraphScore) (M : Nat) : (a.tierWords M).length = (b.tierWords M).length := by
  simp [tierWords]

theorem tiersDown_succ (h : 2 ≤ M) : tiersDown (M + 1) = (M + 1) :: tiersDown M := by
  obtain ⟨k, rfl⟩ : ∃ k, M = k + 2 := ⟨M - 2, by omega⟩
  simp only [tiersDown, show k + 2 + 1 - 2 = k + 1 by omega, Nat.add_sub_cancel, List.range'_concat,
    List.reverse_append, List.reverse_singleton, List.singleton_append]
  congr 1
  omega

theorem mem_tiersDown {k : Nat} : k ∈ tiersDown M ↔ 3 ≤ k ∧ k ≤ M := by
  simp [tiersDown, List.mem_range'_1]
  omega

-- Tiers that both histograms lack do not take part in the comparison.
theorem compare_tierWords (ha : a.Below M) (hb : b.Below M) (hM : M ≤ M') :
    compare (a.tierWords M') (b.tierWords M') = compare (a.tierWords M) (b.tierWords M) := by
  induction M', hM using Nat.le_induction
  case base => rfl
  case succ M' hM ih =>
    rw [← ih]
    by_cases h : 2 ≤ M'
    case neg => simp [tierWords, tiersDown, show M' + 1 - 2 = 0 by omega, show M' - 2 = 0 by omega]
    case pos =>
      have hk : M < M' + 1 := by omega
      simp [tierWords, tiersDown_succ h, ha.tierKeyAt hk, hb.tierKeyAt hk]

theorem foldr_tiers (tail : Ordering) (ks : List Nat) :
    ks.foldr (fun k rest => (compare (a.tierKeyAt k).1 (b.tierKeyAt k).1).then <|
      (compare (a.tierKeyAt k).2 (b.tierKeyAt k).2).then rest) tail =
    (compare (ks.flatMap fun k => [(a.tierKeyAt k).1, (a.tierKeyAt k).2])
      (ks.flatMap fun k => [(b.tierKeyAt k).1, (b.tierKeyAt k).2])).then tail := by
  induction ks
  case nil => simp
  case cons k ks ih => simp [ih, List.compare_cons_cons, Ordering.then_assoc]

end Tiers

section Order

variable {a b c : GraphScore} {M : Nat}

-- The comparison reads the same tiers for any bound on the tiers of both scores.
theorem cmp_eq (ha : a.Valid) (hb : b.Valid) (hM : a.Below M) (hM' : b.Below M) :
    a.cmp b = (compare (a.tierWords M) (b.tierWords M)).then
      ((compare a.goodmanGap b.goodmanGap).then <|
       (compare b.autOrder.toBits a.autOrder.toBits).then <| compare a.cid.bytes b.cid.bytes) := by
  let K := max (a.histogram.maxK.getD 2) (b.histogram.maxK.getD 2)
  have hK := compare_tierWords (ha.below_maxK.mono (le_max_left ..)) (hb.below_maxK.mono (le_max_right ..))
    (le_max_left K M)
  rw [compare_tierWords hM hM' (le_max_right K M)] at hK
  rw [cmp, foldr_tiers, partialCmp_eq hb.positive ha.positive, Option.getD_some, hK]
  rfl

-- The single bytes as words.
def byteWord : OrderCode UInt8 UInt64 where
  encode x           := [x.toUInt64]
  width              := 1
  length_encode _    := rfl
  compare_encode x y := by simp [List.compare_cons_cons, compare_uint64, compare_uint8]

theorem compare_complement (x y : UInt64) : compare (~~~x) (~~~y) = compare y x := by
  have hx := x.toNat_lt
  have hy := y.toNat_lt
  simp only [compare_uint64, UInt64.toNat_not, UInt64.size]
  rcases Nat.lt_trichotomy x.toNat y.toNat with h | h | h
  case inl     => rw [Nat.compare_eq_gt.mpr h, Nat.compare_eq_gt.mpr (by omega)]
  case inr.inl => rw [h, Nat.compare_eq_eq.mpr rfl, Nat.compare_eq_eq.mpr rfl]
  case inr.inr => rw [Nat.compare_eq_lt.mpr h, Nat.compare_eq_lt.mpr (by omega)]

-- All compared components as one list of words. Complementing the group order reverses its order.
def key (score : GraphScore) (M : Nat) : List UInt64 :=
  score.tierWords M ++ score.goodmanGap :: ~~~score.autOrder.toBits :: byteWord.encodeAll score.cid.bytes

theorem cmp_eq_compare_key (ha : a.Valid) (hb : b.Valid) (hM : a.Below M) (hM' : b.Below M) :
    a.cmp b = compare (a.key M) (b.key M) := by
  have hl : a.cid.bytes.length = b.cid.bytes.length := by rw [a.cid.length_bytes, b.cid.length_bytes]
  rw [cmp_eq ha hb hM hM', key, key, compare_append (length_tierWords a b M)]
  rw [List.compare_cons_cons, List.compare_cons_cons, compare_complement, byteWord.compare_encodeAll hl]

theorem flatMap_pair_inj {f g f' g' : Nat → UInt64} {ks : List Nat}
    (h : ks.flatMap (fun k => [f k, g k]) = ks.flatMap fun k => [f' k, g' k]) :
    ∀ k ∈ ks, f k = f' k ∧ g k = g' k := by
  induction ks
  case nil => simp
  case cons k ks ih =>
    simp only [List.flatMap_cons, List.cons_append, List.nil_append, List.cons.injEq] at h
    exact List.forall_mem_cons.mpr ⟨⟨h.1, h.2.1⟩, ih h.2.2⟩

theorem key_eq_iff (ha : a.Valid) (hb : b.Valid) (hM : a.Below M) (hM' : b.Below M) :
    a.key M = b.key M ↔ a.SameKey b := by
  constructor <;> intro h
  case mp =>
    have ⟨hw, ht⟩ := List.append_inj h (length_tierWords a b M)
    simp only [List.cons.injEq] at ht
    refine ⟨fun k => ?_, ht.1, toBits_inj.mp <| by simpa using congrArg (~~~·) ht.2.1, ?_⟩
    · by_cases hk : 3 ≤ k ∧ k ≤ M
      case pos =>
        have := flatMap_pair_inj hw k (mem_tiersDown.mpr hk)
        exact Prod.ext this.1 this.2
      case neg =>
        rcases Nat.lt_or_ge k 3 with h₃ | h₃
        · rw [tierKeyAt_of_lt ha h₃, tierKeyAt_of_lt hb h₃]
        · rw [hM.tierKeyAt (by omega), hM'.tierKeyAt (by omega)]
    · have hl : a.cid.bytes.length = b.cid.bytes.length := by rw [a.cid.length_bytes, b.cid.length_bytes]
      have hc := byteWord.compare_encodeAll hl
      rw [ht.2.2, ReflOrd.compare_self] at hc
      have he := LawfulEqOrd.eq_of_compare hc.symm
      cases ha : a.cid; cases hb : b.cid
      simp_all
  case mpr =>
    simp only [key, tierWords, h.tiers, h.goodmanGap, h.autOrder, h.cid]

end Order

section Bytes

variable {a b : GraphScore}

-- The automorphism orders compared are inverted in a strictly decreasing way.
def InvertsOrder (x y : Float) : Prop :=
  x < y → compare (toBeBytes (1.0 / y)) (toBeBytes (1.0 / x)) = .lt

theorem compare_invAut (ha : a.Valid) (hb : b.Valid) (h : InvertsOrder a.autOrder b.autOrder)
    (h' : InvertsOrder b.autOrder a.autOrder) :
    compare (toBeBytes a.invAut) (toBeBytes b.invAut) = compare b.autOrder.toBits a.autOrder.toBits := by
  have hi {s : GraphScore} (hs : s.Valid) : s.invAut = 1.0 / s.autOrder := if_pos hs.positive
  rw [hi ha, hi hb]
  cases hc : compare b.autOrder.toBits a.autOrder.toBits
  case lt => exact h' <| (lt_iff hb.positive ha.positive).mpr hc
  case eq =>
    rw [toBits_inj.mp <| LawfulEqOrd.eq_of_compare hc]
    exact ReflOrd.compare_self
  case gt =>
    rw [OrientedOrd.eq_swap, Ordering.swap_eq_gt] at hc
    rw [OrientedOrd.eq_swap, h <| (lt_iff ha.positive hb.positive).mpr hc]
    rfl

theorem toScoreBytes_eq (score : GraphScore) (M : Nat) :
    score.toScoreBytes M = beWord.encodeAll (score.tierWords M) ++
      (beWord.encode score.goodmanGap ++ (toBeBytes score.invAut ++ score.cid.bytes)) := by
  simp [toScoreBytes, tierWords, OrderCode.encodeAll, List.flatMap_assoc]

theorem length_toScoreBytes (score : GraphScore) (M : Nat) : (score.toScoreBytes M).length = 16 * (M - 2) + 48 := by
  simp [toScoreBytes_eq, OrderCode.length_encodeAll, length_toBeBytes, score.cid.length_bytes, tierWords, tiersDown,
    beWord.length_encode, show beWord.width = 8 from rfl]
  omega

theorem compare_toScoreBytes (ha : a.Valid) (hb : b.Valid) {M : Nat} (hM : a.Below M) (hM' : b.Below M)
    (h : InvertsOrder a.autOrder b.autOrder) (h' : InvertsOrder b.autOrder a.autOrder) :
    compare (a.toScoreBytes M) (b.toScoreBytes M) = a.cmp b := by
  have hw := length_tierWords a b M
  rw [toScoreBytes_eq, toScoreBytes_eq, cmp_eq ha hb hM hM']
  rw [compare_append (by simp [OrderCode.length_encodeAll, hw]), beWord.compare_encodeAll hw]
  rw [compare_append (by simp [beWord.length_encode]), beWord.compare_encode]
  rw [compare_append (by simp [length_toBeBytes]), compare_invAut ha hb h h']

end Bytes

-- The comparison is a total order on the compared components, and the score bytes for a bound on all
-- tiers are ordered in the same way.
theorem cmp_total_and_compare_toScoreBytes {a b c : GraphScore} (ha : a.Valid) (hb : b.Valid) (hc : c.Valid) :
    a.cmp a = .eq ∧
    a.cmp b = (b.cmp a).swap ∧
    (a.cmp b = .eq ↔ a.SameKey b) ∧
    ((a.cmp b).isLE → (b.cmp c).isLE → (a.cmp c).isLE) ∧
    ∀ M, a.Below M → b.Below M → InvertsOrder a.autOrder b.autOrder → InvertsOrder b.autOrder a.autOrder →
      (a.toScoreBytes M).length = (b.toScoreBytes M).length ∧
      compare (a.toScoreBytes M) (b.toScoreBytes M) = a.cmp b := by
  obtain ⟨M, hA, hB, hC⟩ : ∃ M, a.Below M ∧ b.Below M ∧ c.Below M :=
    ⟨max (a.histogram.maxK.getD 2) (max (b.histogram.maxK.getD 2) (c.histogram.maxK.getD 2)),
      ha.below_maxK.mono (by omega), hb.below_maxK.mono (by omega), hc.below_maxK.mono (by omega)⟩
  rw [cmp_eq_compare_key ha ha hA hA, cmp_eq_compare_key ha hb hA hB, cmp_eq_compare_key hb ha hB hA,
    cmp_eq_compare_key hb hc hB hC, cmp_eq_compare_key ha hc hA hC]
  refine ⟨ReflOrd.compare_self, OrientedOrd.eq_swap, ?_, TransOrd.isLE_trans, ?_⟩
  case refine_1 =>
    rw [← key_eq_iff ha hb hA hB]
    exact ⟨LawfulEqOrd.eq_of_compare, fun h => by rw [h]; exact ReflOrd.compare_self⟩
  case refine_2 =>
    intro M hM hM' h h'
    rw [length_toScoreBytes, length_toScoreBytes, compare_toScoreBytes ha hb hM hM' h h',
      cmp_eq_compare_key ha hb hA hB]
    exact ⟨rfl, rfl⟩

def makeScore (tiers : List (Nat × UInt64 × UInt64)) (goodmanGap : UInt64) (autOrder : Float) : GraphScore where
  histogram  := { tiers := tiers.map fun t => ⟨t.1, t.2.1, t.2.2⟩, n := 25 }
  goodmanGap := goodmanGap
  autOrder   := autOrder
  cid        := ⟨List.replicate 32 0, rfl⟩

theorem makeScore_ordered :
    let a := makeScore [(3, 10, 10), (5, 1, 0)] 0 1.0
    let b := makeScore [(3, 100, 100)] 0 25.0
    a.cmp b = (b.cmp a).swap ∧ a.cmp b = .gt ∧ compare (a.toScoreBytes 5) (b.toScoreBytes 5) = a.cmp b := by
  intro a b
  have ha : a.Valid := ⟨by decide, by decide, by decide +kernel⟩
  have hb : b.Valid := ⟨by decide, by decide, by decide +kernel⟩
  have ⟨_, hs, _, _, hB⟩ := cmp_total_and_compare_toScoreBytes ha hb ha
  have hA : a.Below 5 := by simp [Below, a, makeScore]
  have hB' : b.Below 5 := by simp [Below, b, makeScore]
  have h₁ : InvertsOrder a.autOrder b.autOrder := fun _ => by decide +kernel
  have h₂ : InvertsOrder b.autOrder a.autOrder := fun (h : (25.0 : Float) < 1.0) => absurd h (by decide +kernel)
  exact ⟨hs, by decide +kernel, (hB 5 hA hB' h₁ h₂).2⟩

end GraphScore
