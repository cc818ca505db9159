import Extremal.Scoring.Theorems.Checked
import Extremal.Scoring.Theorems.Guilty

-- The shifts of the clique code, for graphs of up to 64 vertices.

open BitMask CheckedU64 CliqueCount Finset

theorem BitMask.higher?_top : higher? 63 = none :=
  rfl

theorem NeighborSet.higherNeighbors?_top (nbrs : NeighborSet) : nbrs.higherNeighbors? 63 = none := by
  rw [higherNeighbors?, higher?_top]
  cases nbrs.masks[63]? <;> rfl

theorem NeighborSet.higherNeighborsIn?_top (nbrs : NeighborSet) (cand : UInt64) :
    nbrs.higherNeighborsIn? cand 63 = none := by
  rw [higherNeighborsIn?, higherNeighbors?_top]
  rfl

-- A range whose last element is vertex 63.
theorem range_top : List.range 64 = List.range 63 ++ [63] :=
  List.range_succ

section Count

variable {nbrs : NeighborSet} {G : SimpleGraph Nat} [DecidableRel G.Adj]

theorem forBits_stopped {mask : UInt64} {body : CheckedU64 → UInt64 → Nat → CheckedU64}
    (keep : ∀ rest v, body stopped rest v = stopped) : forBits mask stopped body = stopped := by
  refine forBits_rule (fun _ acc => acc = stopped) (fun rest v acc _ h => ?_) rfl
  rw [h, keep]

theorem exists_reachesTop {mask : UInt64} {t : Nat} (ht : ReachesTop G (bits mask) (t + 4)) :
    ∃ v ∈ bits mask, ReachesTop G {w ∈ {w ∈ bits mask | v < w} | G.Adj v w} (t + 3) := by
  have ⟨_, hs⟩ := ht
  rw [show max 1 (t + 4 - 2) = t + 1 + 1 by omega, exists_cliquesIn_succ] at hs
  have ⟨v, hv, s, hs, htop⟩ := hs
  have ⟨hsub, hk, _⟩ := mem_cliquesIn.mp hs
  refine ⟨v, hv, by omega, s, ?_, ?_⟩
  · rwa [show max 1 (t + 3 - 2) = t + 1 by omega, filter_filter]
  · rcases mem_insert.mp htop with rfl | h
    case inr => exact h
    -- The other vertices of the clique are larger than its smallest one.
    case inl =>
      have ⟨w, hw⟩ : s.Nonempty := card_pos.mp (by omega)
      have ⟨hw, hlt, _⟩ := mem_filter.mp <| hsub hw
      have := lt_of_hasBit <| mem_bits.mp hw
      omega

theorem countCliquesInMask?_stopped (h : ∀ v w, hasBit (nbrs.mask v) w ↔ G.Adj v w) : (t : Nat) → ∀ {cand},
    ReachesTop G (bits cand) t → countCliquesInMask? nbrs cand t = stopped
  | 0, cand, ht | 1, cand, ht => absurd ht.1 (by decide)
  | 2, cand, ht => by
    have hs : 63 ∈ bits cand := by_contra fun hs => not_reachesTop hs ht
    rw [countCliquesInMask?]
    refine forBits_establishes (· = stopped) (fun _ v => v = 63) ?_ ?_ ⟨63, hs, rfl⟩ 0
    · rintro _ _ _ rfl
      rfl
    · rintro acc _ _ _ rfl
      rw [NeighborSet.higherNeighborsIn?_top, ones, add_stopped]
  | 3, cand, ht => by
    have hs : 63 ∈ bits cand := by_contra fun hs => not_reachesTop hs ht
    rw [countCliquesInMask?]
    refine forBits_establishes (· = stopped) (fun _ v => v = 63) ?_ ?_ ⟨63, hs, rfl⟩ 0
    · rintro _ _ a rfl
      cases nbrs.higherNeighborsIn? cand a
      case none => rfl
      case some => exact forBits_stopped fun _ _ => rfl
    · rintro acc _ _ _ rfl
      rw [NeighborSet.higherNeighborsIn?_top]
  | t + 4, cand, ht => by
    rw [countCliquesInMask?]
    refine forBits_establishes (· = stopped) (fun rest v => ReachesTop G {w ∈ rest | G.Adj v w} (t + 3)) ?_ ?_
      (exists_reachesTop ht) 0
    · rintro _ _ v rfl
      cases nbrs.masks[v]? <;> rfl
    · intro acc rest v _ ht
      rw [← NeighborSet.bits_and h] at ht
      cases hv : nbrs.masks[v]?
      case none => rfl
      case some mask =>
        have hm : nbrs.mask v = mask := by rw [NeighborSet.mask, List.getD_eq_getElem?_getD, hv, Option.getD_some]
        rw [hm] at ht
        exact (congrArg (acc + ·) <| countCliquesInMask?_stopped h (t + 3) ht).trans <| add_stopped acc

-- From two vertices on, the counter stops at the top vertex of a graph of order 64.
theorem countCliques?_stopped (nbrs : NeighborSet) {k : Nat} (hk : 2 ≤ k) : countCliques? nbrs k 64 = stopped := by
  obtain ⟨k, rfl⟩ := Nat.exists_eq_add_of_le' hk
  cases k
  case zero =>
    rw [countCliques?, range_top, List.foldl_append, List.foldl_cons, List.foldl_nil,
      NeighborSet.higherNeighbors?_top, ones, add_stopped]
  case succ k =>
    rw [countCliques?, range_top, List.foldl_append, List.foldl_cons, List.foldl_nil,
      NeighborSet.higherNeighbors?_top]

end Count

section Mark

variable {nbrs : NeighborSet} {n : Nat} (hn : n ≤ 64) (hl : nbrs.masks.length = n)

include hn in
theorem markPair?_eq {masks : List UInt64} {u v : Nat} (hm : masks.length = n) (hu : u < n) (hv : v < n) :
    markPair? masks u v = some (markPair masks u v) ∧ (markPair masks u v).length = n := by
  refine ⟨?_, by simpa [markPair] using hm⟩
  simp only [markPair?, guard, single?, hm, hu, hv, hu.trans_le hn, hv.trans_le hn, and_self, if_true]
  rfl

include hn hl in
-- Extending a clique shifts by vertices only, which are below 64.
theorem enumerateAndMarkRecurse?_eq (remaining : Nat) {clique candidates guilty} (hc : ∀ v ∈ clique, v < n)
    (hb : ∀ w ∈ bits candidates, w < n) (hg : guilty.length = n) :
    enumerateAndMarkRecurse? nbrs remaining clique candidates guilty =
      some (enumerateAndMarkRecurse nbrs remaining clique candidates guilty) ∧
        (enumerateAndMarkRecurse nbrs remaining clique candidates guilty).length = n := by
  induction remaining generalizing clique candidates guilty
  case zero =>
    have step (guilty : List UInt64) (p) (hp : p ∈ pairs clique.length) (hg : guilty.length = n) :
        markPair? guilty (clique.getD p.1 0) (clique.getD p.2 0) =
          some (markPair guilty (clique.getD p.1 0) (clique.getD p.2 0)) ∧
            (markPair guilty (clique.getD p.1 0) (clique.getD p.2 0)).length = n := by
      have ⟨h₁, h₂⟩ := mem_pairs.mp hp
      exact markPair?_eq hn hg (hc _ <| getD_mem <| h₁.trans h₂) (hc _ <| getD_mem h₂)
    exact ⟨Loop.foldlM_some (fun guilty : List UInt64 => guilty.length = n) step hg,
      Loop.foldl_induction (fun guilty : List UInt64 => guilty.length = n) (fun guilty p hp hg => (step guilty p hp hg).2) hg⟩
  case succ remaining ih =>
    rw [enumerateAndMarkRecurse?, enumerateAndMarkRecurse]
    split
    case isTrue  => exact ⟨rfl, hg⟩
    case isFalse =>
      refine forBits_some (List.length · = n) (fun guilty rest w hw hs hg => ?_) hg
      rw [NeighborSet.getElem?_mask (hl ▸ hb w hw)]
      refine ih ?_ ?_ hg
      · simpa [or_imp, forall_and] using ⟨hc, hb w hw⟩
      · intro x hx
        simp only [mem_bits, hasBit_and, Bool.and_eq_true] at hx
        exact hb x <| hs <| mem_bits.mpr hx.1

theorem enumerateCliquesAndMark?_none (nbrs : NeighborSet) {k : Nat} (hk : 2 < k) (guilty : List UInt64) :
    enumerateCliquesAndMark? nbrs k 64 guilty = none := by
  rw [enumerateCliquesAndMark?, if_neg (by omega), if_neg (by omega), range_top, List.foldlM_append]
  refine Option.bind_eq_none_iff.mpr fun guilty _ => ?_
  rw [List.foldlM_cons, NeighborSet.higherNeighbors?_top]
  rfl

include hn hl in
theorem enumerateCliquesAndMark?_eq (hm : Bounded n nbrs.masks) {k : Nat} (hk : n ≤ 63 ∨ k ≤ 2) {guilty : List UInt64}
    (hg : guilty.length = n) :
    enumerateCliquesAndMark? nbrs k n guilty = some (enumerateCliquesAndMark nbrs k n guilty) ∧
      (enumerateCliquesAndMark nbrs k n guilty).length = n := by
  rw [enumerateCliquesAndMark?, enumerateCliquesAndMark]
  split
  case isTrue => exact ⟨rfl, hg⟩
  split
  case isTrue =>
    have step (guilty : List UInt64) (u) (hu : u ∈ List.range n) (hg : guilty.length = n) :
        (do let mask ← nbrs.masks[u]?; guard (u < guilty.length); return guilty.modify u (· ||| mask)) =
          some (guilty.modify u (· ||| nbrs.mask u)) ∧ (guilty.modify u (· ||| nbrs.mask u)).length = n := by
      have hu := List.mem_range.mp hu
      rw [NeighborSet.getElem?_mask (hl ▸ hu)]
      exact ⟨by simp [guard, hg, hu], by simpa using hg⟩
    exact ⟨Loop.foldlM_some (·.length = n) step hg,
      Loop.foldl_induction (·.length = n) (fun guilty u hu hg => (step guilty u hu hg).2) hg⟩
  case isFalse h₁ h₂ =>
    have step (guilty : List UInt64) (v) (hv : v ∈ List.range n) (hg : guilty.length = n) :
        (do let candidates ← nbrs.higherNeighbors? v; enumerateAndMarkRecurse? nbrs (k - 1) [v] candidates guilty) =
          some (enumerateAndMarkRecurse nbrs (k - 1) [v] (nbrs.mask v &&& higher v) guilty) ∧
            (enumerateAndMarkRecurse nbrs (k - 1) [v] (nbrs.mask v &&& higher v) guilty).length = n := by
      have hv := List.mem_range.mp hv
      rw [NeighborSet.higherNeighbors?_eq (hl ▸ hv) (by omega)]
      refine enumerateAndMarkRecurse?_eq hn hl _ (by simpa using hv) (fun w hw => ?_) hg
      simp only [mem_bits, hasBit_and, Bool.and_eq_true] at hw
      exact hm v w <| mem_bits.mpr hw.1
    exact ⟨Loop.foldlM_some (·.length = n) step hg,
      Loop.foldl_induction (·.length = n) (fun guilty v hv hg => (step guilty v hv hg).2) hg⟩

end Mark

section Guilty

variable {adjNbrs compNbrs : NeighborSet} {k ell n : Nat}

theorem guiltyEdges?_none (adjNbrs compNbrs : NeighborSet) (k ell : Nat) :
    guiltyEdges? adjNbrs compNbrs k ell 64 = none := by
  refine Option.bind_eq_none_iff.mpr fun _ _ => Option.bind_eq_none_iff.mpr fun guilty _ => ?_
  rw [range_top, List.mapM_append]
  refine Option.bind_eq_none_iff.mpr fun edges he => ?_
  have ⟨_, _, he⟩ := Option.bind_eq_some_iff.mp he
  have ⟨_, he, _⟩ := Option.bind_eq_some_iff.mp he
  rw [List.mapM_cons, higher?_top] at he
  cases hg : guilty[63]? <;> rw [hg] at he <;> cases he

theorem guiltyEdges?_eq (hn : n ≤ 63) (hl : adjNbrs.masks.length = n) (hl' : compNbrs.masks.length = n)
    (hm : Bounded n adjNbrs.masks) (hm' : Bounded n compNbrs.masks) :
    guiltyEdges? adjNbrs compNbrs k ell n = some (guiltyEdges adjNbrs compNbrs k ell n) := by
  have ⟨he, hg⟩ := enumerateCliquesAndMark?_eq (k := k) (by omega) hl hm (.inl hn)
    (List.length_replicate (n := n) (a := (0 : UInt64)))
  have ⟨he', hg'⟩ := enumerateCliquesAndMark?_eq (k := ell) (by omega) hl' hm' (.inl hn) hg
  rw [guiltyEdges?, he, Option.bind_eq_bind, Option.bind_some, he', Option.bind_some]
  rw [Loop.mapM_some (g := fun u => forBits ((enumerateCliquesAndMark compNbrs ell n
    (enumerateCliquesAndMark adjNbrs k n (List.replicate n 0))).getD u 0 &&& higher u) [] fun edges _ v =>
      edges ++ [(u, v)])]
  · rfl
  intro u hu
  have hu := List.mem_range.mp hu
  rw [higher?_eq (by omega), List.getElem?_eq_getElem (by omega), List.getD_eq_getElem _ _ (by omega)]
  rfl

end Guilty

section Matrix

open AdjacencyMatrix

variable {m : AdjacencyMatrix} (hn : m.n ≤ 64) {k ell target : Nat} {candidates : UInt64}
include hn

theorem countCliques?_iff :
    countCliques? (.fromAdj m) k m.n = num (countCliques (.fromAdj m) k m.n) ↔ m.n ≤ 63 ∨ k ≤ 1 := by
  have hl := length_masks_fromAdj (m := m)
  constructor
  case mp =>
    refine fun h => by_contra fun hc => ?_
    rw [show m.n = 64 by omega, countCliques?_stopped _ (by omega)] at h
    cases h
  case mpr =>
    rintro (h | h)
    case inl =>
      have hr := represents_fromAdj h
      have hc := countCliques?_eq hr (by omega) (fun v w h => hl ▸ natGraph_lt v w h) k
      rw [hl] at hc
      rw [hc, countCliques_eq hr h natGraph_lt, ofNat_of_lt]
      exact card_cliquesIn_le.trans_lt <| choose_lt_word (by simpa) k
    case inr => rcases Nat.le_one_iff_eq_zero_or_eq_one.mp h with rfl | rfl <;> rfl

theorem countCliquesInMask?_iff (hc : ∀ v ∈ bits candidates, v < m.n) :
    countCliquesInMask? (.fromAdj m) candidates target = num (countCliquesInMask (.fromAdj m) candidates target) ↔
      ¬ReachesTop m.natGraph (bits candidates) target := by
  have ha : ∀ v w, hasBit ((NeighborSet.fromAdj m).mask v) w ↔ m.natGraph.Adj v w := fun _ _ => hasBit_neighborMasks hn
  constructor
  case mp =>
    intro h ht
    rw [countCliquesInMask?_stopped ha _ ht] at h
    cases h
  case mpr =>
    intro ht
    rw [countCliquesInMask?_eq ha _ (by rwa [length_masks_fromAdj]) ht, countCliquesInMask_of_not_reachesTop ha _ ht,
      ofNat_of_lt]
    exact card_cliquesIn_le.trans_lt <| choose_lt_word (card_bits_le candidates) target

theorem enumerateCliquesAndMark?_iff {guilty : List UInt64} (hg : guilty.length = m.n) :
    enumerateCliquesAndMark? (.fromAdj m) k m.n guilty = some (enumerateCliquesAndMark (.fromAdj m) k m.n guilty) ↔
      m.n ≤ 63 ∨ k ≤ 2 := by
  constructor
  case mp =>
    refine fun h => by_contra fun hc => ?_
    rw [show m.n = 64 by omega, enumerateCliquesAndMark?_none _ (by omega)] at h
    cases h
  case mpr => exact fun h => (enumerateCliquesAndMark?_eq hn length_masks_fromAdj (bounded_neighborMasks hn) h hg).1

theorem guiltyEdges?_iff :
    guiltyEdges? (.fromAdj m) (.fromAdj m.complement) k ell m.n =
      some (guiltyEdges (.fromAdj m) (.fromAdj m.complement) k ell m.n) ↔ m.n ≤ 63 := by
  constructor
  case mp =>
    refine fun h => by_contra fun hc => ?_
    rw [show m.n = 64 by omega, guiltyEdges?_none] at h
    cases h
  case mpr =>
    intro h
    have hm : Bounded m.complement.n (NeighborSet.fromAdj m.complement).masks := bounded_neighborMasks (by simpa)
    rw [n_complement] at hm
    exact guiltyEdges?_eq h length_masks_fromAdj (length_masks_fromAdj.trans n_complement) (bounded_neighborMasks hn) hm

end Matrix

-- The functions return, with what they compute when a shift that is too wide wraps instead.
structure ShiftsInRange (m : AdjacencyMatrix) (k ell : Nat) (candidates : UInt64) (target : Nat) : Prop where
  countCliques            : countCliques? (.fromAdj m) k m.n = num (countCliques (.fromAdj m) k m.n)
  countCliquesInMask      : countCliquesInMask? (.fromAdj m) candidates target =
    num (countCliquesInMask (.fromAdj m) candidates target)
  guiltyEdges             : guiltyEdges? (.fromAdj m) (.fromAdj m.complement) k ell m.n =
    some (guiltyEdges (.fromAdj m) (.fromAdj m.complement) k ell m.n)
  enumerateCliquesAndMark : ∀ guilty, guilty.length = m.n → enumerateCliquesAndMark? (.fromAdj m) k m.n guilty =
    some (enumerateCliquesAndMark (.fromAdj m) k m.n guilty)

open AdjacencyMatrix in
-- All shifts are in range for up to 63 vertices. With 64 vertices the top vertex is shifted out of the word,
-- except where the special paths do not look for its higher neighbours.
theorem shiftsInRange_iff {m : AdjacencyMatrix} (hn : m.n ≤ 64) (k ell target : Nat) {candidates : UInt64}
    (hc : ∀ v ∈ BitMask.bits candidates, v < m.n) :
    (ShiftsInRange m k ell candidates target ↔ m.n ≤ 63) ∧
    (countCliques? (.fromAdj m) k m.n = num (countCliques (.fromAdj m) k m.n) ↔ m.n ≤ 63 ∨ k ≤ 1) ∧
    (countCliquesInMask? (.fromAdj m) candidates target = num (countCliquesInMask (.fromAdj m) candidates target) ↔
      ¬ReachesTop m.natGraph (BitMask.bits candidates) target) ∧
    (guiltyEdges? (.fromAdj m) (.fromAdj m.complement) k ell m.n =
      some (guiltyEdges (.fromAdj m) (.fromAdj m.complement) k ell m.n) ↔ m.n ≤ 63) ∧
    ∀ guilty, guilty.length = m.n → (enumerateCliquesAndMark? (.fromAdj m) k m.n guilty =
      some (enumerateCliquesAndMark (.fromAdj m) k m.n guilty) ↔ m.n ≤ 63 ∨ k ≤ 2) := by
  refine ⟨⟨fun h => ?_, fun h => ?_⟩, ?_⟩
  · exact guiltyEdges?_iff hn |>.mp h.guiltyEdges
  · have ht : ¬ReachesTop m.natGraph (BitMask.bits candidates) target :=
      not_reachesTop fun ht => by have := hc 63 ht; omega
    exact {
      countCliques            := countCliques?_iff hn |>.mpr <| .inl h
      countCliquesInMask      := countCliquesInMask?_iff hn hc |>.mpr ht
      guiltyEdges             := guiltyEdges?_iff hn |>.mpr h
      enumerateCliquesAndMark := fun _ hg => enumerateCliquesAndMark?_iff hn hg |>.mpr <| .inl h }
  · exact ⟨countCliques?_iff hn, countCliquesInMask?_iff hn hc, guiltyEdges?_iff hn,
      fun _ hg => enumerateCliquesAndMark?_iff hn hg⟩

open AdjacencyMatrix in
theorem shiftsInRange_path3 :
    let m := ((new 3).setEdge 0 1 true).setEdge 1 2 true
    ShiftsInRange m 3 3 7 2 ↔ m.n ≤ 63 :=
  (shiftsInRange_iff (m := ((new 3).setEdge 0 1 true).setEdge 1 2 true) (by decide) 3 3 2 (by decide)).1

open AdjacencyMatrix in
-- With the single edge between the first and the last of 64 vertices, the shift for the last one either panics or
-- wraps, and then the edge counts twice.
theorem countCliques_wraps :
    let m := (new 64).setEdge 0 63 true
    countCliques? (.fromAdj m) 2 m.n = stopped ∧ countCliques (.fromAdj m) 2 m.n = 2 ∧ m.numEdges = 1 := by
  decide +kernel
