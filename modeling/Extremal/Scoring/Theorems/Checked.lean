import Extremal.Scoring.Checked
import Extremal.Scoring.Theorems.Clique

open BitMask CheckedU64 CliqueCount Finset

theorem CheckedU64.ones_eq (mask : UInt64) : ones (some mask) = ofNat #(bits mask) := by
  rw [ones, countOnes_eq, ofNat_of_lt]
  have := card_bits_le mask
  omega

theorem BitMask.higher?_eq {v : Nat} (hv : v < 63) : higher? v = some (higher v) := by
  simp [higher?, single?, higher, show v + 1 < 64 by omega]

section Count

variable {nbrs : NeighborSet} {G : SimpleGraph Nat} [DecidableRel G.Adj] {cand : UInt64} {n : Nat}

theorem NeighborSet.getElem?_mask {v : Nat} (hv : v < nbrs.masks.length) : nbrs.masks[v]? = some (nbrs.mask v) := by
  simp [mask, hv]

theorem NeighborSet.higherNeighbors?_eq {v : Nat} (hl : v < nbrs.masks.length) (hv : v < 63) :
    nbrs.higherNeighbors? v = some (nbrs.mask v &&& higher v) := by
  simp [higherNeighbors?, getElem?_mask hl, higher?_eq hv]

theorem NeighborSet.higherNeighborsIn?_eq {v : Nat} (hl : v < nbrs.masks.length) (hv : v < 63) :
    nbrs.higherNeighborsIn? cand v = some (cand &&& nbrs.mask v &&& higher v) := by
  simp [higherNeighborsIn?, higherNeighbors?_eq hl hv, UInt64.and_assoc]

section Mask

variable (h : ∀ v w, hasBit (nbrs.mask v) w ↔ G.Adj v w)
include h

theorem forBits_edges? (hc : ∀ v ∈ bits cand, v < nbrs.masks.length) (hs : 63 ∉ bits cand) (acc : CheckedU64) :
    forBits cand acc (fun count _ v => count + ones (nbrs.higherNeighborsIn? cand v)) =
      acc + ofNat #(cliquesIn G (bits cand) 2) := by
  refine forBits_cliques_above CheckedU64.ofNatHom (fun acc rest v hv => ?_) acc
  have hv' : v < 63 := lt_top_of_mem hs hv
  rw [NeighborSet.higherNeighborsIn?_eq (hc v hv) hv', ones_eq, NeighborSet.bits_and_higher h hv', card_cliquesIn_one]
  rfl

-- Nothing stops the counter but vertex 63 and a sum that exceeds the word.
theorem countCliquesInMask?_eq : (t : Nat) → ∀ {cand}, (∀ v ∈ bits cand, v < nbrs.masks.length) →
    ¬ReachesTop G (bits cand) t → countCliquesInMask? nbrs cand t = ofNat #(cliquesIn G (bits cand) t)
  | 0, cand, _, _ => by
    rw [countCliquesInMask?, card_cliquesIn_zero]; rfl
  | 1, cand, _, _ => by
    rw [countCliquesInMask?, card_cliquesIn_one, ones_eq]
  | 2, cand, hc, ht => by
    rw [countCliquesInMask?, forBits_edges? h hc (mt (reachesTop_of_mem le_rfl (by decide)) ht), zero_add]
  | 3, cand, hc, ht => by
    have hs : 63 ∉ bits cand := mt (reachesTop_of_mem (by decide) le_rfl) ht
    rw [countCliquesInMask?, forBits_cliques_above CheckedU64.ofNatHom (G := G) (t := 2), zero_add]
    case hb =>
      intro acc rest a ha
      have ha' : a < 63 := lt_top_of_mem hs ha
      have hb : bits (cand &&& nbrs.mask a &&& higher a) = {w ∈ bits cand | a < w ∧ G.Adj a w} :=
        NeighborSet.bits_and_higher h ha'
      have hsub : ∀ w ∈ bits (cand &&& nbrs.mask a &&& higher a), w ∈ bits cand := by
        intro w hw
        rw [hb] at hw
        exact (mem_filter.mp hw).1
      simp only [NeighborSet.higherNeighborsIn?_eq (hc a ha) ha']
      rw [forBits_edges? h (fun w hw => hc w (hsub w hw)) (fun hw => hs (hsub _ hw)), hb]
      rfl
    rfl
  | t + 4, cand, hc, ht => by
    rw [countCliquesInMask?, forBits_cliques CheckedU64.ofNatHom (G := G) (t := t + 3), zero_add]
    case hb =>
      intro acc rest v hv hs
      have hb : bits (rest &&& nbrs.mask v) = {w ∈ bits rest | G.Adj v w} := NeighborSet.bits_and h v
      simp only [NeighborSet.getElem?_mask (hc v hv)]
      rw [countCliquesInMask?_eq (t + 3), hb]
      · rfl
      · intro w hw
        rw [hb] at hw
        exact hc w <| hs (mem_filter.mp hw).1
      · rw [hb]
        exact fun hr => ht <| hr.of_filter hv hs
    rfl

end Mask

variable (h : nbrs.Represents G) (hl : nbrs.masks.length ≤ 63)
include h hl

theorem countCliques?_eq (hG : ∀ v w, G.Adj v w → w < nbrs.masks.length) :
    (k : Nat) → countCliques? nbrs k nbrs.masks.length = ofNat #(cliquesIn G (range nbrs.masks.length) k)
  | 0 => by
    rw [countCliques?, card_cliquesIn_zero]; rfl
  | 1 => by
    rw [countCliques?, card_cliquesIn_one, card_range, ofNat_of_lt (by omega)]
  | 2 => by
    rw [countCliques?, foldl_cliques CheckedU64.ofNatHom (G := G) (t := 1), zero_add]
    case hb =>
      intro acc v hv
      rw [NeighborSet.higherNeighbors?_eq hv (by omega), ones_eq, h.bits_higher hG (by omega), card_cliquesIn_one]
      rfl
    rfl
  | k + 3 => by
    rw [countCliques?, foldl_cliques CheckedU64.ofNatHom (G := G) (t := k + 2), zero_add]
    case hb =>
      intro acc v hv
      have hb := h.bits_higher hG (by omega : v < 63)
      have hlt : ∀ w ∈ bits (nbrs.mask v &&& higher v), w < nbrs.masks.length := by
        intro w hw
        rw [hb, mem_filter, mem_range] at hw
        exact hw.1
      simp only [NeighborSet.higherNeighbors?_eq hv (show v < 63 by omega)]
      rw [countCliquesInMask?_eq h.adj _ hlt (not_reachesTop fun ht => by have := hlt 63 ht; omega), hb]
      rfl
    rfl

omit hl in
theorem countCliquesGeneric_eq : (t : Nat) → ∀ {cand},
    countCliquesGeneric nbrs cand t = .ofNat #(cliquesIn G (bits cand) t)
  | 0, cand => by
    rw [countCliquesGeneric, card_cliquesIn_zero]; rfl
  | t + 1, cand => by
    rw [countCliquesGeneric, forBits_cliques BitMask.ofNatHom (G := G) (t := t), UInt64.zero_add]
    case hb =>
      intro acc rest v _ _
      rw [countCliquesGeneric_eq t, h.bits_and]
      rfl
    rfl

end Count

section Edge

variable {nbrs : NeighborSet} {G : SimpleGraph Nat} [DecidableRel G.Adj] {k u v : Nat}

theorem NeighborSet.hasEdge?_eq (hu : u < nbrs.masks.length) (hv : v < 64) :
    nbrs.hasEdge? u v = some (nbrs.hasEdge u v) := by
  simp [hasEdge?, getElem?_mask hu, single?, hv, hasEdge]

theorem NeighborSet.commonNeighbors?_eq (hu : u < nbrs.masks.length) (hv : v < nbrs.masks.length)
    (hl : nbrs.masks.length ≤ 62) : nbrs.commonNeighbors? u v = some (commonNeighbors nbrs u v) := by
  simp [commonNeighbors?, getElem?_mask hu, getElem?_mask hv, single?, commonNeighbors,
    show u < 64 by omega, show v < 64 by omega]

variable (h : nbrs.Represents G) (hl : nbrs.masks.length ≤ 62) (hG : ∀ v w, G.Adj v w → w < nbrs.masks.length)
  (hu : u < nbrs.masks.length) (hv : v < nbrs.masks.length)
include h hl hG hu hv

theorem countCliquesThroughEdgeAssuming_lt (x : Bool) :
    (countCliquesThroughEdgeAssuming nbrs k u v x).toNat < 2 ^ 62 := by
  cases x
  case false => simp [countCliquesThroughEdgeAssuming]
  case true =>
    rcases k with _ | _ | k
    · simp [countCliquesThroughEdgeAssuming]
    · simp [countCliquesThroughEdgeAssuming]
    · rw [countCliquesThroughEdgeAssuming_eq h (by omega) (by omega) hG]
      refine lt_of_le_of_lt (Nat.mod_le ..) <| card_cliquesIn_lt ?_ k
      exact card_filter_le _ _ |>.trans <| by simpa

theorem countCliquesThroughEdgeAssuming?_eq (x : Bool) :
    countCliquesThroughEdgeAssuming? nbrs k u v x = num (countCliquesThroughEdgeAssuming nbrs k u v x) := by
  have hb := h.bits_common (u := u) (v := v) (by omega) (by omega) hG
  have hc : ∀ w ∈ bits (commonNeighbors nbrs u v), w < nbrs.masks.length := fun w hw => by
    rw [hb, mem_filter, mem_range] at hw
    exact hw.1
  have hm : countCliquesInMask? nbrs (commonNeighbors nbrs u v) (k - 2) =
      num (countCliquesInMask nbrs (commonNeighbors nbrs u v) (k - 2)) := by
    rw [countCliquesInMask?_eq h.adj _ hc (not_reachesTop fun ht => by have := hc 63 ht; omega),
      countCliquesInMask_eq h _ fun w hw => (hc w hw).trans_le (by omega), ofNat_of_lt]
    have hcard := card_filter_le (range nbrs.masks.length) (fun w => G.Adj u w ∧ G.Adj v w)
    rw [card_range] at hcard
    exact hb ▸ (card_cliquesIn_lt (hcard.trans hl) _).trans (by decide)
  simp only [countCliquesThroughEdgeAssuming?, countCliquesThroughEdgeAssuming, NeighborSet.commonNeighbors?_eq hu hv hl, hm]
  split_ifs <;> rfl

theorem countCliquesThroughEdge?_eq :
    countCliquesThroughEdge? nbrs k u v = num (countCliquesThroughEdge nbrs k u v) := by
  rw [countCliquesThroughEdge_eq, countCliquesThroughEdge?, NeighborSet.hasEdge?_eq hu (by omega)]
  split
  case isTrue hk  => simp [countCliquesThroughEdgeAssuming, hk]
  case isFalse    => exact countCliquesThroughEdgeAssuming?_eq h hl hG hu hv _

end Edge

section Int64

variable {a b : UInt64} (ha : a.toNat < 2 ^ 62) (hb : b.toNat < 2 ^ 62)

include ha in
theorem checkedNeg_eq : checkedNeg a.toInt64 = some (-a.toInt64) := by
  rw [checkedNeg, toInt_toInt64 (by omega), if_pos (by omega)]

include ha hb

theorem checkedSubI64_eq : checkedSubI64 a.toInt64 b.toInt64 = some (a.toInt64 - b.toInt64) := by
  rw [checkedSubI64, toInt_toInt64 (by omega), toInt_toInt64 (by omega), if_pos (by omega)]

theorem toInt_toInt64_sub : (a.toInt64 - b.toInt64).toInt = a.toNat - b.toNat := by
  rw [Int64.toInt_sub, toInt_toInt64 (by omega), toInt_toInt64 (by omega), Int.bmod_eq_of_le] <;> omega

end Int64

section Matrix

open AdjacencyMatrix

variable {m : AdjacencyMatrix} {u v : Nat}

theorem length_masks_fromAdj : (NeighborSet.fromAdj m).masks.length = m.n :=
  length_neighborMasks

theorem countCliques?_fromAdj (hn : m.n ≤ 62) (k : Nat) :
    countCliques? (.fromAdj m) k m.n = num (countCliques (.fromAdj m) k m.n) := by
  have hl := length_masks_fromAdj (m := m)
  have hr := represents_fromAdj (m := m) (by omega)
  have := countCliques?_eq hr (by omega) (fun v w h => hl ▸ natGraph_lt v w h) k
  rw [hl] at this
  rw [this, countCliques_eq hr (by omega) natGraph_lt, ofNat_of_lt]
  exact (card_cliquesIn_lt (by simpa) k).trans (by decide)

-- The counter returns the number of sets of `k` pairwise adjacent vertices, without an overflow on the
-- way, and its special paths do what the recursion does.
theorem countCliques_counts (hn : m.n ≤ 62) :
    (∀ k, countCliques? (.fromAdj m) k m.n = num (countCliques (.fromAdj m) k m.n) ∧
      (countCliques (.fromAdj m) k m.n).toNat =
        #{s : Finset (Fin m.n) | #s = k ∧ ∀ i ∈ s, ∀ j ∈ s, i ≠ j → m.edge i j}) ∧
    ∀ candidates : UInt64, (∀ v ∈ BitMask.bits candidates, v < m.n) → ∀ target,
      countCliquesInMask (.fromAdj m) candidates target = countCliquesGeneric (.fromAdj m) candidates target := by
  have hr := represents_fromAdj (m := m) (by omega)
  constructor
  case left =>
    intro k
    refine ⟨countCliques?_fromAdj hn k, toNat_countCliques hn k |>.trans <| congrArg card ?_⟩
    ext s
    simp only [SimpleGraph.mem_cliqueFinset_iff, SimpleGraph.isNClique_iff, mem_filter, mem_univ, true_and]
    exact and_comm
  case right =>
    intro candidates hc target
    rw [countCliquesInMask_eq hr target fun v hv => (hc v hv).trans_le (by omega), countCliquesGeneric_eq hr]

theorem countCliques_counts_path3 :
    let m := ((new 3).setEdge 0 1 true).setEdge 1 2 true
    countCliques? (.fromAdj m) 2 3 = num (countCliques (.fromAdj m) 2 3) ∧
      countCliquesInMask (.fromAdj m) 7 3 = countCliquesGeneric (.fromAdj m) 7 3 :=
  have ⟨h, h'⟩ := countCliques_counts (m := ((new 3).setEdge 0 1 true).setEdge 1 2 true) (by decide)
  ⟨(h 2).1, h' 7 (by decide) 3⟩

section Delta

variable (hn : m.n ≤ 62) (hu : u < m.n) (hv : v < m.n)
include hn hu hv

theorem violationDelta?_eq (k ell : Nat) :
    violationDelta? (.fromAdj m) (.fromAdj m.complement) k ell u v =
      some (violationDelta (.fromAdj m) (.fromAdj m.complement) k ell u v) := by
  have hl := length_masks_fromAdj (m := m)
  have hl' : (NeighborSet.fromAdj m.complement).masks.length = m.n := length_masks_fromAdj.trans n_complement
  have hr := represents_fromAdj (m := m) (by omega)
  have hr' := represents_fromAdj (m := m.complement) (by simp; omega)
  have hG : ∀ v w, m.natGraph.Adj v w → w < (NeighborSet.fromAdj m).masks.length :=
    fun v w h => hl ▸ natGraph_lt v w h
  have hG' : ∀ v w, m.complement.natGraph.Adj v w → w < (NeighborSet.fromAdj m.complement).masks.length :=
    fun v w h => length_masks_fromAdj (m := m.complement) ▸ natGraph_lt v w h
  have lt (k x) := countCliquesThroughEdgeAssuming_lt (k := k) hr (by omega) hG (hl ▸ hu) (hl ▸ hv) x
  have lt' (k x) := countCliquesThroughEdgeAssuming_lt (k := k) hr' (by omega) hG' (hl' ▸ hu) (hl' ▸ hv) x
  simp only [violationDelta?, violationDelta, NeighborSet.hasEdge?_eq (hl ▸ hu) (show v < 64 by omega),
    countCliquesThroughEdge?_eq hr (by omega) hG (hl ▸ hu) (hl ▸ hv),
    countCliquesThroughEdge?_eq hr' (by omega) hG' (hl' ▸ hu) (hl' ▸ hv),
    countCliquesThroughEdgeAssuming?_eq hr (by omega) hG (hl ▸ hu) (hl ▸ hv),
    countCliquesThroughEdgeAssuming?_eq hr' (by omega) hG' (hl' ▸ hu) (hl' ▸ hv),
    countCliquesThroughEdge_eq, value, Option.bind_eq_bind, Option.bind_some,
    checkedNeg_eq (lt ..), checkedNeg_eq (lt' ..), checkedSubI64_eq (lt ..) (lt ..), checkedSubI64_eq (lt' ..) (lt' ..)]
  split <;> rfl

-- The delta of a pair is the difference between the full counts after and before flipping it, and is
-- computed without an overflow.
theorem violationDelta_exact (hne : u ≠ v) (k ell : Nat) :
    violationDelta? (.fromAdj m) (.fromAdj m.complement) k ell u v =
      some (violationDelta (.fromAdj m) (.fromAdj m.complement) k ell u v) ∧
    let flipped := m.setEdge u v !(m.edge u v)
    let d := violationDelta (.fromAdj m) (.fromAdj m.complement) k ell u v
    d.1.toInt = (countCliques (.fromAdj flipped) k m.n).toNat - (countCliques (.fromAdj m) k m.n).toNat ∧
    d.2.toInt = (countCliques (.fromAdj flipped.complement) ell m.n).toNat -
      (countCliques (.fromAdj m.complement) ell m.n).toNat := by
  have lt {m' : AdjacencyMatrix} (h : m'.n = m.n) (k : Nat) : (countCliques (.fromAdj m') k m.n).toNat < 2 ^ 62 := by
    rw [← h, toNat_countCliques (by omega)]
    exact card_cliqueFinset_lt (by omega) k
  refine ⟨violationDelta?_eq hn hu hv k ell, ?_, ?_⟩ <;> simp only [violationDelta_eq hn hne hu hv]
  · exact toInt_toInt64_sub (lt n_setEdge k) (lt rfl k)
  · exact toInt_toInt64_sub (lt (by simp) ell) (lt (by simp) ell)

end Delta

-- Closing a path to a triangle.
theorem violationDelta_exact_path3 :
    let m := ((new 3).setEdge 0 1 true).setEdge 1 2 true
    let flipped := m.setEdge 0 2 !(m.edge 0 2)
    (violationDelta (.fromAdj m) (.fromAdj m.complement) 3 2 0 2).1.toInt =
      (countCliques (.fromAdj flipped) 3 m.n).toNat - (countCliques (.fromAdj m) 3 m.n).toNat := by
  intro m
  exact violationDelta_exact (m := m) (u := 0) (v := 2) (by decide) (by decide) (by decide) (by decide) 3 2 |>.2.1

end Matrix
