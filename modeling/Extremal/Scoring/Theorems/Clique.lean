import Extremal.Lib.CliqueCount
import Extremal.Lib.Loop
import Extremal.Graph.Theorems.Adjacency
import Extremal.Scoring.Clique

open BitMask CliqueCount Finset

-- The masks are the neighbourhoods of `G`, and its vertices are small enough for the shifts of the
-- enumeration.
structure NeighborSet.Represents (nbrs : NeighborSet) (G : SimpleGraph Nat) : Prop where
  adj   : ∀ v w, hasBit (nbrs.mask v) w ↔ G.Adj v w
  small : ∀ v w, G.Adj v w → w < 63

theorem BitMask.lt_top_of_mem {mask : UInt64} {v : Nat} (h : 63 ∉ bits mask) (hv : v ∈ bits mask) : v < 63 := by
  have := lt_of_hasBit <| mem_bits.mp hv
  have : v ≠ 63 := fun he => h (he ▸ hv)
  omega

section Count

variable {nbrs : NeighborSet} {G : SimpleGraph Nat} [DecidableRel G.Adj] {cand : UInt64}

theorem NeighborSet.bits_and (h : ∀ v w, hasBit (nbrs.mask v) w ↔ G.Adj v w) (v : Nat) :
    bits (cand &&& nbrs.mask v) = {w ∈ bits cand | G.Adj v w} := by
  ext w
  simp [mem_bits, h]

theorem NeighborSet.bits_and_higher (h : ∀ v w, hasBit (nbrs.mask v) w ↔ G.Adj v w) {v : Nat} (hv : v < 63) :
    bits (cand &&& nbrs.mask v &&& higher v) = {w ∈ bits cand | v < w ∧ G.Adj v w} := by
  ext w
  have := lt_of_hasBit (m := cand) (i := w)
  simp only [mem_bits, mem_filter, hasBit_and, Bool.and_eq_true, h, hasBit_higher hv, decide_eq_true_eq]
  grind

theorem NeighborSet.Represents.bits_and (h : nbrs.Represents G) (v : Nat) :
    bits (cand &&& nbrs.mask v) = {w ∈ bits cand | G.Adj v w} :=
  NeighborSet.bits_and h.adj v

theorem NeighborSet.Represents.bits_higher (h : nbrs.Represents G) {n : Nat} (hG : ∀ v w, G.Adj v w → w < n)
    {v : Nat} (hv : v < 63) : bits (nbrs.mask v &&& higher v) = {w ∈ range n | v < w ∧ G.Adj v w} := by
  ext w
  have h₁ := h.small v w
  have h₂ := hG v w
  simp only [mem_bits, mem_filter, mem_range, hasBit_and, Bool.and_eq_true, h.adj, hasBit_higher hv,
    decide_eq_true_eq]
  grind

section Loops

variable {M : Type} [AddCommMonoid M] (f : Nat →+ M) {t : Nat}

-- A loop over the candidates that adds the cliques among the later neighbours of each of them.
theorem forBits_cliques {body : M → UInt64 → Nat → M}
    (hb : ∀ acc rest v, v ∈ bits cand → bits rest ⊆ bits cand →
      body acc rest v = acc + f #(cliquesIn G {w ∈ bits rest | G.Adj v w} t)) (acc : M) :
    forBits cand acc body = acc + f #(cliquesIn G (bits cand) (t + 1)) := by
  rw [forBits_sum (fun rest v => f #(cliquesIn G {w ∈ rest | G.Adj v w} t)) hb, card_cliquesIn_succ, map_sum]
  simp only [filter_filter]

-- As above, with the neighbours taken from all candidates.
theorem forBits_cliques_above {body : M → UInt64 → Nat → M}
    (hb : ∀ acc rest v, v ∈ bits cand →
      body acc rest v = acc + f #(cliquesIn G {w ∈ bits cand | v < w ∧ G.Adj v w} t)) (acc : M) :
    forBits cand acc body = acc + f #(cliquesIn G (bits cand) (t + 1)) := by
  rw [forBits_sum (fun _ v => f #(cliquesIn G {w ∈ bits cand | v < w ∧ G.Adj v w} t)) fun acc rest v hv _ =>
    hb acc rest v hv, card_cliquesIn_succ, map_sum]

theorem foldl_cliques {n : Nat} {body : M → Nat → M}
    (hb : ∀ acc, ∀ v < n, body acc v = acc + f #(cliquesIn G {w ∈ range n | v < w ∧ G.Adj v w} t)) (acc : M) :
    (List.range n).foldl body acc = acc + f #(cliquesIn G (range n) (t + 1)) := by
  rw [Loop.foldl_range_sum _ hb, card_cliquesIn_succ, map_sum]

end Loops

-- The shift for the neighbours above vertex 63 is as wide as the word. The counter comes to this vertex in the
-- fast path for at most three vertices, which starts from all cliques of the other vertices.
def ReachesTop (G : SimpleGraph Nat) (C : Finset Nat) (t : Nat) : Prop :=
  2 ≤ t ∧ ∃ s ∈ cliquesIn G C (max 1 (t - 2)), 63 ∈ s

omit [DecidableRel G.Adj] in
theorem not_reachesTop {C : Finset Nat} {t : Nat} (h : 63 ∉ C) : ¬ReachesTop G C t :=
  fun ⟨_, _, hs, ht⟩ => h <| (mem_cliquesIn.mp hs).1 ht

omit [DecidableRel G.Adj] in
theorem reachesTop_of_mem {C : Finset Nat} {t : Nat} (ht : 2 ≤ t) (ht' : t ≤ 3) : 63 ∈ C → ReachesTop G C t := by
  intro h
  refine ⟨ht, {63}, mem_cliquesIn.mpr ⟨by simpa using h, ?_, by simp⟩, by simp⟩
  rw [card_singleton]
  omega

theorem ReachesTop.of_filter {C D : Finset Nat} {v t : Nat} (hv : v ∈ C) (hD : D ⊆ C)
    (h : ReachesTop G {w ∈ D | G.Adj v w} (t + 3)) : ReachesTop G C (t + 4) := by
  have ⟨_, s, hs, ht⟩ := h
  have ⟨hs, hk, hc⟩ := mem_cliquesIn.mp hs
  have hw (w) (hw : w ∈ s) : w ∈ D ∧ G.Adj v w := mem_filter.mp (hs hw)
  have hn : v ∉ s := fun h => (hw v h).2.ne rfl
  refine ⟨by omega, insert v s, mem_cliquesIn.mpr ⟨?_, ?_, ?_⟩, mem_insert_of_mem ht⟩
  · exact insert_subset hv fun w h => hD (hw w h).1
  · rw [card_insert_of_notMem hn, hk]; omega
  · rw [coe_insert]
    exact hc.insert fun w h _ => (hw w h).2

-- The innermost loop adds the number of edges among the candidates.
theorem forBits_edges (h : ∀ v w, hasBit (nbrs.mask v) w ↔ G.Adj v w) (hs : 63 ∉ bits cand) (acc : UInt64) :
    forBits cand acc (fun count _ v => count + .ofNat (countOnes (cand &&& nbrs.mask v &&& higher v))) =
      acc + .ofNat #(cliquesIn G (bits cand) 2) := by
  refine forBits_cliques_above ofNatHom (fun acc rest v hv => ?_) acc
  rw [countOnes_eq, NeighborSet.bits_and_higher h (lt_top_of_mem hs hv), card_cliquesIn_one]
  rfl

theorem countCliquesInMask_of_not_reachesTop (h : ∀ v w, hasBit (nbrs.mask v) w ↔ G.Adj v w) :
    (t : Nat) → ∀ {cand}, ¬ReachesTop G (bits cand) t →
      countCliquesInMask nbrs cand t = .ofNat #(cliquesIn G (bits cand) t)
  | 0, cand, _ => by
    rw [countCliquesInMask, card_cliquesIn_zero]; rfl
  | 1, cand, _ => by
    rw [countCliquesInMask, card_cliquesIn_one, countOnes_eq]
  | 2, cand, ht => by
    rw [countCliquesInMask, forBits_edges h (mt (reachesTop_of_mem le_rfl (by decide)) ht), UInt64.zero_add]
  | 3, cand, ht => by
    have hs : 63 ∉ bits cand := mt (reachesTop_of_mem (by decide) le_rfl) ht
    rw [countCliquesInMask, forBits_cliques_above ofNatHom (G := G) (t := 2), UInt64.zero_add]
    case hb =>
      intro acc rest a ha
      simp only [UInt64.and_comm (nbrs.mask a) cand]
      have hb : bits (cand &&& nbrs.mask a &&& higher a) = _ := NeighborSet.bits_and_higher h (lt_top_of_mem hs ha)
      rw [forBits_edges h, hb]
      · rfl
      · rw [hb]
        exact fun ht => hs (mem_filter.mp ht).1
    rfl
  | t + 4, cand, ht => by
    rw [countCliquesInMask, forBits_cliques ofNatHom (G := G) (t := t + 3), UInt64.zero_add]
    case hb =>
      intro acc rest v hv hs
      have hb : bits (rest &&& nbrs.mask v) = {w ∈ bits rest | G.Adj v w} := NeighborSet.bits_and h v
      rw [countCliquesInMask_of_not_reachesTop h (t + 3), hb]
      · rfl
      · rw [hb]
        exact fun hr => ht <| hr.of_filter hv hs
    rfl

theorem countCliquesInMask_eq (h : nbrs.Represents G) (t : Nat) (hc : ∀ v ∈ bits cand, v < 63) :
    countCliquesInMask nbrs cand t = .ofNat #(cliquesIn G (bits cand) t) :=
  countCliquesInMask_of_not_reachesTop h.adj t <| not_reachesTop fun ht => lt_irrefl _ <| hc 63 ht

-- The vertices of `G` are `0, ..., n - 1`.
theorem countCliques_eq (h : nbrs.Represents G) {n : Nat} (hn : n ≤ 63) (hG : ∀ v w, G.Adj v w → w < n) :
    (k : Nat) → countCliques nbrs k n = .ofNat #(cliquesIn G (range n) k)
  | 0 => by
    rw [countCliques, card_cliquesIn_zero]; rfl
  | 1 => by
    rw [countCliques, card_cliquesIn_one, card_range]
  | 2 => by
    rw [countCliques, foldl_cliques ofNatHom (G := G) (t := 1), UInt64.zero_add]
    case hb =>
      intro acc v hv
      rw [countOnes_eq, h.bits_higher hG (by omega), card_cliquesIn_one]
      rfl
    rfl
  | k + 3 => by
    rw [countCliques, foldl_cliques ofNatHom (G := G) (t := k + 2), UInt64.zero_add]
    case hb =>
      intro acc v hv
      have hb := h.bits_higher hG (by omega : v < 63)
      rw [countCliquesInMask_eq h, hb]
      · rfl
      · intro w hw
        rw [hb, mem_filter, mem_range] at hw
        omega
    rfl

end Count

-- At most 62 vertices keep every count far below the range of the machine words.
theorem choose_lt {n : Nat} (hn : n ≤ 62) (k : Nat) : n.choose k < 2 ^ 62 := by
  calc
    n.choose k ≤ (62).choose k := Nat.choose_le_choose k hn
    _ ≤ (62).choose 31 := Nat.choose_le_middle k 62
    _ < 2 ^ 62 := by decide +kernel

theorem choose_lt_word {n : Nat} (hn : n ≤ 64) (k : Nat) : n.choose k < 2 ^ 64 := by
  calc
    n.choose k ≤ (64).choose k := Nat.choose_le_choose k hn
    _ ≤ (64).choose 32 := Nat.choose_le_middle k 64
    _ < 2 ^ 64 := by decide +kernel

theorem card_cliquesIn_lt {G : SimpleGraph Nat} {C : Finset Nat} (hC : #C ≤ 62) (k : Nat) :
    #(cliquesIn G C k) < 2 ^ 62 :=
  card_cliquesIn_le.trans_lt <| choose_lt hC k

section Edge

variable {nbrs : NeighborSet} {G : SimpleGraph Nat} [DecidableRel G.Adj] {n k u v : Nat}

omit [DecidableRel G.Adj] in
theorem NeighborSet.Represents.hasEdge (h : nbrs.Represents G) (hv : v < 64) :
    nbrs.hasEdge u v ↔ G.Adj u v := by
  rw [NeighborSet.hasEdge, and_single_ne_zero hv, h.adj]

theorem NeighborSet.Represents.bits_common (h : nbrs.Represents G) (hu : u < 63) (hv : v < 63)
    (hG : ∀ v w, G.Adj v w → w < n) :
    bits (commonNeighbors nbrs u v) = {w ∈ range n | G.Adj u w ∧ G.Adj v w} := by
  ext w
  simp only [commonNeighbors, mem_bits, hasBit_and, hasBit_not, Bool.and_eq_true, h.adj, mem_filter, mem_range,
    hasBit_single (show u < 64 by omega), hasBit_single (show v < 64 by omega), Bool.not_eq_true',
    decide_eq_true_eq, decide_eq_false_iff_not]
  constructor
  case mp  => exact fun ⟨⟨⟨hu, hv⟩, _⟩, _⟩ => ⟨hG u w hu, hu, hv⟩
  case mpr =>
    intro ⟨_, hu, hv⟩
    have := h.small u w hu
    exact ⟨⟨⟨hu, hv⟩, by omega, hu.ne.symm⟩, by omega, hv.ne.symm⟩

-- Cliques through an edge correspond to cliques of the common neighbours of its ends.
theorem countCliquesThroughEdgeAssuming_eq (h : nbrs.Represents G) (hu : u < 63) (hv : v < 63)
    (hG : ∀ v w, G.Adj v w → w < n) :
    countCliquesThroughEdgeAssuming nbrs (k + 2) u v true =
      .ofNat #(cliquesIn G {w ∈ range n | G.Adj u w ∧ G.Adj v w} k) := by
  have hb := h.bits_common hu hv hG
  simp only [countCliquesThroughEdgeAssuming]
  rw [if_neg (by simp)]
  split
  case isTrue hk =>
    obtain rfl : k = 0 := by omega
    rw [card_cliquesIn_zero]; rfl
  split
  case isTrue hc =>
    rw [countOnes_eq, hb] at hc
    have := card_cliquesIn_le (G := G) (C := {w ∈ range n | G.Adj u w ∧ G.Adj v w}) (k := k)
    rw [Nat.choose_eq_zero_of_lt (by omega), Nat.le_zero] at this
    rw [this]; rfl
  case isFalse =>
    rw [countCliquesInMask_eq h, hb]
    · rfl
    · intro w hw
      rw [hb] at hw
      exact h.small u w (mem_filter.mp hw).2.1

theorem countCliquesThroughEdge_eq (nbrs : NeighborSet) (k u v : Nat) :
    countCliquesThroughEdge nbrs k u v = countCliquesThroughEdgeAssuming nbrs k u v (nbrs.hasEdge u v) :=
  rfl

theorem countCliquesThroughEdgeAssuming_false (nbrs : NeighborSet) (k u v : Nat) :
    (countCliquesThroughEdgeAssuming nbrs k u v false).toInt64 = 0 := by
  simp only [countCliquesThroughEdgeAssuming, Bool.not_false, Bool.or_true, if_true]
  rfl

end Edge

theorem toInt_toInt64 {count : UInt64} (h : count.toNat < 2 ^ 63) : count.toInt64.toInt = count.toNat :=
  BitVec.toInt_eq_toNat_of_lt (by simpa using by omega)

section Matrix

open AdjacencyMatrix

variable {m m' : AdjacencyMatrix} {k ell u v : Nat}

theorem represents_fromAdj (hn : m.n ≤ 63) : (NeighborSet.fromAdj m).Represents m.natGraph where
  adj _ _     := hasBit_neighborMasks (by omega)
  small _ _ h := lt_of_lt_of_le h.2.1 hn

theorem natGraph_lt (v w : Nat) (h : m.natGraph.Adj v w) : w < m.n :=
  h.2.1

theorem range_eq_map (n : Nat) : range n = (univ : Finset (Fin n)).map Fin.valEmbedding := by
  ext v
  simp only [mem_map, mem_univ, true_and, Fin.valEmbedding_apply, mem_range]
  exact ⟨fun hv => ⟨⟨v, hv⟩, rfl⟩, fun ⟨i, hi⟩ => hi ▸ i.isLt⟩

theorem card_cliquesIn_natGraph (m : AdjacencyMatrix) (k : Nat) :
    #(cliquesIn m.natGraph (range m.n) k) = #(m.graph.cliqueFinset k) := by
  have := card_cliquesIn_map (G := m.natGraph) (k := k) (Fin.valEmbedding (n := m.n))
  simp only [comap_natGraph] at this
  rw [range_eq_map]
  convert this

theorem countCliques_fromAdj (hn : m.n ≤ 63) (k : Nat) :
    countCliques (.fromAdj m) k m.n = .ofNat #(m.graph.cliqueFinset k) := by
  rw [countCliques_eq (represents_fromAdj hn) hn natGraph_lt, card_cliquesIn_natGraph]

-- The numbers of `k`-cliques of the graph and of its complement.

def AdjacencyMatrix.reds (m : AdjacencyMatrix) (k : Nat) : Nat :=
  #(m.graph.cliqueFinset k)

def AdjacencyMatrix.blues (m : AdjacencyMatrix) (k : Nat) : Nat :=
  #(m.graphᶜ.cliqueFinset k)

theorem reds_eq_zero_iff : m.reds k = 0 ↔ m.graph.CliqueFree k := by
  rw [reds, card_eq_zero, SimpleGraph.cliqueFinset_eq_empty_iff]

theorem blues_eq_zero_iff : m.blues k = 0 ↔ m.graphᶜ.CliqueFree k := by
  rw [blues, card_eq_zero, SimpleGraph.cliqueFinset_eq_empty_iff]

theorem reds_complement : m.complement.reds k = m.blues k :=
  card_cliqueFinset_iso m.complGraphIso

-- A clique contains cliques of all smaller sizes.
theorem reds_eq_zero_of_le (hk : k ≤ ell) (h : m.reds k = 0) : m.reds ell = 0 :=
  reds_eq_zero_iff.mpr <| (reds_eq_zero_iff.mp h).mono hk

theorem blues_eq_zero_of_le (hk : k ≤ ell) (h : m.blues k = 0) : m.blues ell = 0 :=
  blues_eq_zero_iff.mpr <| (blues_eq_zero_iff.mp h).mono hk

theorem card_cliqueFinset_lt (hn : m.n ≤ 62) (k : Nat) : #(m.graph.cliqueFinset k) < 2 ^ 62 := by
  calc
    #(m.graph.cliqueFinset k) ≤ #(powersetCard k univ) := card_le_card fun s hs => by
      simp [(SimpleGraph.mem_cliqueFinset_iff ..).mp hs |>.card_eq]
    _ ≤ m.n.choose k := by simp
    _ < 2 ^ 62 := choose_lt hn k

theorem toNat_countCliques (hn : m.n ≤ 62) (k : Nat) :
    (countCliques (.fromAdj m) k m.n).toNat = #(m.graph.cliqueFinset k) := by
  rw [countCliques_fromAdj (by omega), UInt64.toNat_ofNat']
  exact Nat.mod_eq_of_lt <| lt_trans (card_cliqueFinset_lt hn k) (by decide)

theorem addsEdge_setEdge (hn : u ≠ v) (hu : u < m.n) (hv : v < m.n) :
    AddsEdge (m.setEdge u v false).natGraph (m.setEdge u v true).natGraph u v where
  absent  := by simp [natGraph_adj, edge_setEdge hn hu hv hu hv]
  present := by simp [natGraph_adj, hu, hv, edge_setEdge hn hu hv hu hv]
  others a b h := by
    simp only [natGraph_adj, n_setEdge]
    refine and_congr_right fun ha => and_congr_right fun hb => ?_
    rw [edge_setEdge hn hu hv ha hb, edge_setEdge hn hu hv ha hb, if_neg h, if_neg h]

section Flip

variable (hn : m.n ≤ 62) (hne : u ≠ v) (hu : u < m.n) (hv : v < m.n)
include hn hne hu hv

-- The cliques through an added edge, counted before or after adding it.
theorem countCliques_setEdge (x : Bool) (k : Nat) :
    countCliques (.fromAdj (m.setEdge u v true)) (k + 2) m.n =
      countCliques (.fromAdj (m.setEdge u v false)) (k + 2) m.n +
        countCliquesThroughEdgeAssuming (.fromAdj (m.setEdge u v x)) (k + 2) u v true := by
  have e := addsEdge_setEdge hne hu hv
  have count (y) : countCliques (.fromAdj (m.setEdge u v y)) (k + 2) m.n =
      .ofNat #(cliquesIn (m.setEdge u v y).natGraph (range m.n) (k + 2)) :=
    countCliques_eq (represents_fromAdj (by simp; omega)) (by omega) (fun v w h => by simpa using natGraph_lt v w h) _
  rw [count, count, e.card_cliquesIn (mem_range.mpr hu) (mem_range.mpr hv), UInt64.ofNat_add,
    countCliquesThroughEdgeAssuming_eq (n := m.n) (represents_fromAdj (by simp; omega)) (by omega) (by omega)
      (fun v w h => by simpa using natGraph_lt v w h)]
  cases x
  case false => rfl
  case true  => rw [e.cliquesIn_common]

omit hne in
theorem hasEdge_fromAdj : (NeighborSet.fromAdj m).hasEdge u v = m.edge u v := by
  have := (represents_fromAdj (m := m) (by omega)).hasEdge (u := u) (v := v) (by omega)
  simpa [natGraph_adj, hu, hv] using this

-- The change in the number of cliques is the number of cliques through the pair, counted as present
-- or as absent.
theorem countCliques_flip : (k : Nat) →
    (countCliques (.fromAdj (m.setEdge u v !(m.edge u v))) k m.n).toInt64 =
      (countCliques (.fromAdj m) k m.n).toInt64 +
        (countCliquesThroughEdgeAssuming (.fromAdj m) k u v (!m.edge u v)).toInt64 -
        (countCliquesThroughEdgeAssuming (.fromAdj m) k u v (m.edge u v)).toInt64
  -- There are no cliques of less than two vertices through a pair.
  | 0 | 1 => by
    simp only [countCliques, countCliquesThroughEdgeAssuming, Nat.reduceLT, decide_true, Bool.true_or, if_true]
    grind
  | k + 2 => by
    have hm := setEdge_edge hne hu hv
    have hc := countCliques_setEdge hn hne hu hv (m.edge u v) k
    rw [hm] at hc
    cases hx : m.edge u v <;> rw [hx] at hm
    case false =>
      rw [Bool.not_false, hc, hm, countCliquesThroughEdgeAssuming_false, UInt64.toInt64_add, Int64.sub_zero]
    case true =>
      rw [hm] at hc
      rw [Bool.not_true, hc, countCliquesThroughEdgeAssuming_false, UInt64.toInt64_add]
      grind

-- The deltas are the differences between the full counts after and before the flip.
theorem violationDelta_eq (k ell : Nat) :
    violationDelta (.fromAdj m) (.fromAdj m.complement) k ell u v =
      let flipped := m.setEdge u v !(m.edge u v)
      ((countCliques (.fromAdj flipped) k m.n).toInt64 - (countCliques (.fromAdj m) k m.n).toInt64,
       (countCliques (.fromAdj flipped.complement) ell m.n).toInt64 -
         (countCliques (.fromAdj m.complement) ell m.n).toInt64) := by
  have hn' : m.complement.n ≤ 62 := by simpa
  have hu' : u < m.complement.n := by simpa
  have hv' : v < m.complement.n := by simpa
  have hk := countCliques_flip hn hne hu hv k
  have hl := countCliques_flip hn' hne hu' hv' ell
  have he : m.complement.edge u v = !m.edge u v := edge_complement hu hv hne
  rw [he, n_complement] at hl
  simp only [complement_setEdge hu hv hne, violationDelta, countCliquesThroughEdge_eq, hk, hl,
    hasEdge_fromAdj hn hu hv, hasEdge_fromAdj hn' hu' hv', he]
  cases m.edge u v <;>
    simp only [countCliquesThroughEdgeAssuming_false, Bool.not_false, Bool.not_true, Bool.false_eq_true,
      if_true, if_false, Prod.mk.injEq] <;>
    grind

end Flip

theorem NeighborSet.ext_mask {nbrs nbrs' : NeighborSet} (hl : nbrs.masks.length = nbrs'.masks.length)
    (h : ∀ a b, hasBit (nbrs.mask a) b = hasBit (nbrs'.mask a) b) : nbrs = nbrs' := by
  obtain ⟨masks⟩ := nbrs
  obtain ⟨masks'⟩ := nbrs'
  refine congrArg NeighborSet.mk <| List.ext_getElem hl fun a ha ha' => BitMask.ext fun b _ => ?_
  simpa [NeighborSet.mask, ha, ha'] using h a b

theorem hasBit_flipEdge {nbrs : NeighborSet} {a b : Nat} (hl : nbrs.masks.length ≤ 64) (hne : u ≠ v)
    (hu : u < nbrs.masks.length) (hv : v < nbrs.masks.length) :
    hasBit ((nbrs.flipEdge u v).mask a) b = (hasBit (nbrs.mask a) b ^^ decide (s(a, b) = s(u, v))) := by
  have hb (i) (hi : i < nbrs.masks.length) : hasBit (single i) b = decide (b = i) := hasBit_single (by omega) b
  simp only [NeighborSet.mask, NeighborSet.flipEdge, List.getD_eq_getElem?_getD, List.getElem?_modify, Sym2.eq_iff]
  by_cases h₁ : u = a
  case pos =>
    subst h₁
    have h₂ : v ≠ u := hne.symm
    simp [h₂, hu, hb v hv]
    grind
  by_cases h₂ : v = a
  case pos => subst h₂; simp [h₁, hv, hb u hu]; grind
  case neg =>
    have : ¬(a = u ∧ b = v ∨ a = v ∧ b = u) := by grind
    simp [h₁, h₂, this]

-- Toggling a pair in the neighbour sets follows toggling it in the matrix.
theorem fromAdj_flip (hn : m.n ≤ 62) (hne : u ≠ v) (hu : u < m.n) (hv : v < m.n) :
    NeighborSet.fromAdj (m.setEdge u v !(m.edge u v)) = (NeighborSet.fromAdj m).flipEdge u v := by
  have hl : (NeighborSet.fromAdj m).masks.length = m.n := length_neighborMasks
  have hr := represents_fromAdj (m := m) (by omega)
  have hr' := represents_fromAdj (m := m.setEdge u v !(m.edge u v)) (by simp; omega)
  have hm (a b : Nat) : hasBit ((NeighborSet.fromAdj (m.setEdge u v !(m.edge u v))).mask a) b =
      hasBit (((NeighborSet.fromAdj m).flipEdge u v).mask a) b := by
    rw [hasBit_flipEdge (by omega) hne (by omega) (by omega), Bool.eq_iff_iff, hr'.adj]
    have hh := hr.adj a b
    by_cases h : a < m.n ∧ b < m.n
    case pos =>
      simp only [natGraph_adj, h.1, h.2, true_and, n_setEdge, edge_setEdge hne hu hv h.1 h.2] at hh ⊢
      by_cases he : s(a, b) = s(u, v)
      case neg => simp [he, hh]
      case pos =>
        have : m.edge u v = m.edge a b := by
          rcases Sym2.eq_iff.mp he with ⟨rfl, rfl⟩ | ⟨rfl, rfl⟩
          · rfl
          · exact edge_comm ..
        simp [he, this, Bool.eq_iff_iff.mpr hh]
    case neg =>
      have he : s(a, b) ≠ s(u, v) := fun he => h <| by
        rcases Sym2.eq_iff.mp he with ⟨rfl, rfl⟩ | ⟨rfl, rfl⟩ <;> exact ⟨‹_›, ‹_›⟩
      have : ¬(a < m.n ∧ b < m.n ∧ m.edge a b) := fun h' => h ⟨h'.1, h'.2.1⟩
      simp only [natGraph_adj, n_setEdge, this, iff_false] at hh ⊢
      simp [he, hh]
      grind
  refine NeighborSet.ext_mask ?_ fun a b => hm a b
  simp [NeighborSet.fromAdj, NeighborSet.flipEdge, length_neighborMasks]

end Matrix
