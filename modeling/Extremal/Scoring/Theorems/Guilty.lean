import Extremal.Lib.Loop
import Extremal.Graph.Theorems.Adjacency
import Extremal.Scoring.Theorems.Clique

open BitMask CliqueCount Finset

-- All set bits of the masks are below `n`.
def Bounded (n : Nat) (masks : List UInt64) : Prop :=
  ∀ a, ∀ b ∈ bits (masks.getD a 0), b < n

namespace Bounded

variable {n : Nat} {masks : List UInt64}

theorem replicate (n l : Nat) : Bounded n (List.replicate l 0) := by
  intro a b hb
  rw [mem_bits, List.getD_eq_getElem?_getD, List.getElem?_replicate] at hb
  split at hb <;> simp at hb

variable (h : Bounded n masks)
include h

theorem modify {m : UInt64} (hm : ∀ b ∈ bits m, b < n) (u : Nat) : Bounded n (masks.modify u (· ||| m)) := by
  intro a b hb
  rw [mem_bits, List.getD_eq_getElem?_getD, List.getElem?_modify] at hb
  have ha := h a b
  rw [mem_bits, List.getD_eq_getElem?_getD] at ha
  have hm := hm b
  rw [mem_bits] at hm
  cases hx : masks[a]? <;> simp only [hx] at ha hb
  case none => simp at hb
  case some =>
    split at hb <;> simp_all
    case isTrue => exact hb.elim ha hm

theorem markPair {u v : Nat} (hn : n ≤ 64) (hu : u < n) (hv : v < n) : Bounded n (markPair masks u v) := by
  have hs {i} (hi : i < n) : ∀ b ∈ bits (single i), b < n := by
    intro b hb
    rw [mem_bits, hasBit_single (by omega), decide_eq_true_eq] at hb
    omega
  exact h.modify (hs hv) u |>.modify (hs hu) v

end Bounded

section Enumerate

variable {nbrs : NeighborSet} {n : Nat}

theorem bounded_enumerateAndMarkRecurse (hn : n ≤ 64) (remaining : Nat) {clique candidates guilty}
    (hc : ∀ v ∈ clique, v < n) (hb : ∀ v ∈ bits candidates, v < n) (hg : Bounded n guilty) :
    Bounded n (enumerateAndMarkRecurse nbrs remaining clique candidates guilty) := by
  induction remaining generalizing clique candidates guilty
  case zero =>
    refine Loop.foldl_induction (Bounded n) (fun guilty p hp h => ?_) hg
    have ⟨h₁, h₂⟩ := mem_pairs.mp hp
    exact h.markPair hn (hc _ <| getD_mem <| h₁.trans h₂) (hc _ <| getD_mem h₂)
  case succ remaining ih =>
    rw [enumerateAndMarkRecurse]
    split
    case isTrue => exact hg
    case isFalse =>
      refine (forBits_rule (fun todo guilty => (∀ v ∈ todo, v < n) ∧ Bounded n guilty) ?_ ⟨hb, hg⟩).2
      intro rest v guilty _ ⟨ht, hg⟩
      have ⟨hv, hr⟩ := Finset.forall_mem_insert .. |>.mp ht
      refine ⟨hr, ih ?_ ?_ hg⟩
      · simpa [or_imp, forall_and] using ⟨hc, hv⟩
      · intro w hw
        simp only [mem_bits, hasBit_and, Bool.and_eq_true] at hw
        exact hr w <| mem_bits.mpr hw.1

theorem bounded_enumerateCliquesAndMark (hn : n ≤ 64) (hm : Bounded n nbrs.masks) (k : Nat) {guilty}
    (hg : Bounded n guilty) : Bounded n (enumerateCliquesAndMark nbrs k n guilty) := by
  rw [enumerateCliquesAndMark]
  split
  case isTrue => exact hg
  split
  case isTrue  => exact Loop.foldl_induction (Bounded n) (fun guilty u _ h => h.modify (hm u) u) hg
  case isFalse =>
    refine Loop.foldl_induction (Bounded n) (fun guilty v hv h => ?_) hg
    refine bounded_enumerateAndMarkRecurse hn _ (by simpa using hv) (fun w hw => ?_) h
    simp only [mem_bits, hasBit_and, Bool.and_eq_true] at hw
    exact hm v w <| mem_bits.mpr hw.1

end Enumerate

theorem bounded_neighborMasks {m : AdjacencyMatrix} (hn : m.n ≤ 64) : Bounded m.n m.neighborMasks := by
  intro a b hb
  rw [mem_bits, AdjacencyMatrix.hasBit_neighborMasks hn] at hb
  exact hb.2.1

-- The guilty edges are pairs of vertices.
theorem mem_pairs_of_mem_guiltyEdges {m : AdjacencyMatrix} (hn : m.n ≤ 62) {k ell : Nat} {p : Nat × Nat}
    (hp : p ∈ guiltyEdges (.fromAdj m) (.fromAdj m.complement) k ell m.n) : p ∈ pairs m.n := by
  have hm : Bounded m.n (NeighborSet.fromAdj m).masks := bounded_neighborMasks (by omega)
  have hm' : Bounded m.complement.n (NeighborSet.fromAdj m.complement).masks := bounded_neighborMasks (by simp; omega)
  rw [AdjacencyMatrix.n_complement] at hm'
  have ⟨u, hu, hp⟩ := List.mem_flatMap.mp hp
  have hu := List.mem_range.mp hu
  have hg := bounded_enumerateCliquesAndMark (by omega) hm' ell <|
    bounded_enumerateCliquesAndMark (by omega) hm k (.replicate m.n m.n)
  let P (todo : Finset Nat) (edges : List (Nat × Nat)) : Prop :=
    (∀ v ∈ todo, u < v ∧ v < m.n) ∧ ∀ p ∈ edges, p ∈ pairs m.n
  refine (forBits_rule P ?_ ⟨?_, by simp⟩).2 p hp
  case refine_1 =>
    intro rest v edges _ ⟨ht, he⟩
    have ⟨hv, hr⟩ := Finset.forall_mem_insert .. |>.mp ht
    refine ⟨hr, fun p hp => ?_⟩
    cases List.mem_append.mp hp
    case inl hp => exact he p hp
    case inr hp => exact List.mem_singleton.mp hp ▸ mem_pairs.mpr hv
  case refine_2 =>
    intro v hv
    rw [mem_bits, hasBit_and, Bool.and_eq_true, hasBit_higher (by omega), decide_eq_true_eq] at hv
    exact ⟨hv.2.1, hg u v <| mem_bits.mpr hv.1⟩

-- The two vertices are different ones of `s`.
def Together (s : Finset Nat) (a b : Nat) : Prop :=
  a ∈ s ∧ b ∈ s ∧ a ≠ b

def Marked (masks : List UInt64) (a b : Nat) : Prop :=
  hasBit (masks.getD a 0) b

theorem not_marked_replicate (n a b : Nat) : ¬Marked (List.replicate n 0) a b := by
  rw [Marked, List.getD_eq_getElem?_getD, List.getElem?_replicate]
  split <;> simp

theorem getD_ne_of_mem_pairs {l : List Nat} (hl : l.Nodup) {p : Nat × Nat} (hp : p ∈ pairs l.length) :
    l.getD p.1 0 ≠ l.getD p.2 0 := by
  have ⟨hlt, h₂⟩ := mem_pairs.mp hp
  rw [List.getD_eq_getElem _ _ (hlt.trans h₂), List.getD_eq_getElem _ _ h₂, ne_eq, hl.getElem_inj_iff]
  exact hlt.ne

theorem exists_mem_pairs_iff {l : List Nat} (hl : l.Nodup) {a b : Nat} :
    (∃ p ∈ pairs l.length, s(a, b) = s(l.getD p.1 0, l.getD p.2 0)) ↔ Together l.toFinset a b := by
  simp only [Together, List.mem_toFinset]
  constructor
  case mp =>
    rintro ⟨⟨i, j⟩, hp, he⟩
    have ⟨hij, hj⟩ := mem_pairs.mp hp
    have hi := hij.trans hj
    have hn := getD_ne_of_mem_pairs hl hp
    rcases Sym2.eq_iff.mp he with ⟨rfl, rfl⟩ | ⟨rfl, rfl⟩
    · exact ⟨getD_mem hi, getD_mem hj, hn⟩
    · exact ⟨getD_mem hj, getD_mem hi, hn.symm⟩
  case mpr =>
    intro ⟨ha, hb, hn⟩
    obtain ⟨i, hi, rfl⟩ := List.mem_iff_getElem.mp ha
    obtain ⟨j, hj, rfl⟩ := List.mem_iff_getElem.mp hb
    have hij : i ≠ j := fun he => hn (by simp [he])
    refine ⟨(min i j, max i j), mem_pairs.mpr (by omega), ?_⟩
    rcases Nat.le_total i j with h | h
    · simp [h, hi, hj]
    · simp [h, hi, hj, Sym2.eq_swap]

theorem marked_markPair {masks : List UInt64} {n u v a b : Nat} (hl : masks.length = n) (hn : n ≤ 64)
    (hne : u ≠ v) (hu : u < n) (hv : v < n) (ha : a < n) :
    Marked (markPair masks u v) a b ↔ Marked masks a b ∨ s(a, b) = s(u, v) := by
  simp only [Marked, AdjacencyMatrix.hasBit_markPair hl hn hne hu hv ha, Bool.or_eq_true, decide_eq_true_eq]
  exact or_comm

section Exact

variable {nbrs : NeighborSet} {G : SimpleGraph Nat} [DecidableRel G.Adj] {n a b : Nat}

-- A completed clique gets its pairs marked.
theorem marked_complete (hn : n ≤ 64) (ha : a < n) {clique guilty} (hd : clique.Nodup)
    (hc : ∀ v ∈ clique, v < n) (hl : guilty.length = n) (candidates : UInt64) :
    (enumerateAndMarkRecurse nbrs 0 clique candidates guilty).length = n ∧
      (Marked (enumerateAndMarkRecurse nbrs 0 clique candidates guilty) a b ↔
        Marked guilty a b ∨ Together clique.toFinset a b) := by
  rw [← exists_mem_pairs_iff hd]
  refine Loop.foldl_or (·.length = n) (Marked · a b) (fun guilty p hp hl => ?_) hl
  have ⟨h₁, h₂⟩ := mem_pairs.mp hp
  exact ⟨by simpa [markPair] using hl,
    marked_markPair hl hn (getD_ne_of_mem_pairs hd hp) (hc _ <| getD_mem <| h₁.trans h₂) (hc _ <| getD_mem h₂) ha⟩

-- The recursion marks the pairs that lie together in an extension of `clique` by a clique of
-- candidates.
theorem marked_enumerateAndMarkRecurse (h : nbrs.Represents G) (hn : n ≤ 64) (ha : a < n) (remaining : Nat)
    (candidates : UInt64) {clique guilty} (hd : clique.Nodup) (hc : ∀ v ∈ clique, v < n)
    (hs : ∀ v ∈ clique, ∀ w ∈ bits candidates, v < w) (hb : ∀ w ∈ bits candidates, w < n)
    (hl : guilty.length = n) :
    (enumerateAndMarkRecurse nbrs remaining clique candidates guilty).length = n ∧
      (Marked (enumerateAndMarkRecurse nbrs remaining clique candidates guilty) a b ↔
        Marked guilty a b ∨ ∃ s ∈ cliquesIn G (bits candidates) remaining, Together (clique.toFinset ∪ s) a b) := by
  induction remaining generalizing clique candidates guilty
  case zero => simpa using marked_complete hn ha hd hc hl candidates
  case succ remaining ih =>
    rw [enumerateAndMarkRecurse]
    split
    case isTrue hp =>
      rw [countOnes_eq] at hp
      simp [hl, cliquesIn_eq_empty hp]
    case isFalse =>
      let touches (rest : Finset Nat) (w : Nat) :=
        ∃ s ∈ cliquesIn G {x ∈ rest | G.Adj w x} remaining, Together (clique.toFinset ∪ insert w s) a b
      rw [exists_cliquesIn_succ]
      simp only [← filter_filter]
      refine forBits_or (·.length = n) (Marked · a b) touches
        (fun guilty rest w hw hsub hlt hl => ?_) hl
      have hr : bits (rest &&& nbrs.mask w) = {x ∈ bits rest | G.Adj w x} := h.bits_and w
      have hin : ∀ x ∈ bits (rest &&& nbrs.mask w), x ∈ bits rest := by simp [hr]; tauto
      have hd' : (clique ++ [w]).Nodup := by
        simpa [List.nodup_append, hd] using fun v hv => (hs v hv w hw).ne
      have hc' : ∀ v ∈ clique ++ [w], v < n := by simpa [or_imp, forall_and] using ⟨hc, hb w hw⟩
      have hs' : ∀ v ∈ clique ++ [w], ∀ x ∈ bits (rest &&& nbrs.mask w), v < x := by
        intro v hv x hx
        rcases List.mem_append.mp hv with hv | hv
        · exact hs v hv x <| hsub (hin x hx)
        · exact List.mem_singleton.mp hv ▸ hlt x (hin x hx)
      have ⟨hl, hm⟩ := ih (rest &&& nbrs.mask w) hd' hc' hs' (fun x hx => hb x <| hsub (hin x hx)) hl
      refine ⟨hl, hm.trans ?_⟩
      simp [touches, hr, List.toFinset_append]

variable (hn : n ≤ 63)
include hn

theorem marked_enumerateCliquesAndMark (h : nbrs.Represents G) (hG : ∀ v w, G.Adj v w → w < n) (ha : a < n)
    {k : Nat} (hk : 2 ≤ k) {guilty} (hl : guilty.length = n) :
    (enumerateCliquesAndMark nbrs k n guilty).length = n ∧
      (Marked (enumerateCliquesAndMark nbrs k n guilty) a b ↔
        Marked guilty a b ∨ ∃ s ∈ cliquesIn G (range n) k, Together s a b) := by
  rw [enumerateCliquesAndMark, if_neg (by omega)]
  split
  case isTrue hk =>
    subst hk
    have hr : (∃ s ∈ cliquesIn G (range n) 2, Together s a b) ↔ ∃ u ∈ List.range n, u = a ∧ G.Adj u b := by
      simp only [Together, exists_cliquesIn_two, mem_range, List.mem_range]
      exact ⟨fun h => ⟨a, ha, rfl, h.2.2⟩, by rintro ⟨_, _, rfl, h⟩; exact ⟨ha, hG _ _ h, h⟩⟩
    rw [hr]
    refine Loop.foldl_or (·.length = n) (Marked · a b) (fun guilty u hu hl => ?_) hl
    refine ⟨by simpa using hl, ?_⟩
    have ha : a < guilty.length := hl ▸ ha
    simp only [Marked, List.getD_eq_getElem?_getD, List.getElem?_modify, getElem?_pos, ha, ← h.adj]
    by_cases hu : u = a <;> simp [hu]
  case isFalse =>
    obtain ⟨k, rfl⟩ : ∃ t, k = t + 1 := ⟨k - 1, by omega⟩
    rw [exists_cliquesIn_succ]
    have hr : (∃ v ∈ range n, ∃ s ∈ cliquesIn G {w ∈ range n | v < w ∧ G.Adj v w} k, Together (insert v s) a b) ↔
        ∃ v ∈ List.range n, ∃ s ∈ cliquesIn G {w ∈ range n | v < w ∧ G.Adj v w} k, Together (insert v s) a b := by
      simp
    rw [hr]
    refine Loop.foldl_or (·.length = n) (Marked · a b) (fun guilty v hv hl => ?_) hl
    have hv := List.mem_range.mp hv
    have hb := h.bits_higher hG (show v < 63 by omega)
    have hm := marked_enumerateAndMarkRecurse (b := b) h (by omega) ha k (nbrs.mask v &&& higher v)
      (List.nodup_singleton v) (by simpa using hv)
      (by simp [hb]; tauto) (by simp [hb]; tauto) hl
    rw [hb] at hm
    simpa using hm

variable {adjNbrs compNbrs : NeighborSet} {H : SimpleGraph Nat} [DecidableRel H.Adj] {k ell : Nat}

theorem mem_guiltyEdges_iff (h : adjNbrs.Represents G) (hG : ∀ v w, G.Adj v w → w < n)
    (h' : compNbrs.Represents H) (hH : ∀ v w, H.Adj v w → w < n) (hk : 2 ≤ k) (hl : 2 ≤ ell) :
    (a, b) ∈ guiltyEdges adjNbrs compNbrs k ell n ↔ a < n ∧ a < b ∧
      ((∃ s ∈ cliquesIn G (range n) k, Together s a b) ∨ ∃ s ∈ cliquesIn H (range n) ell, Together s a b) := by
  let guilty := enumerateCliquesAndMark compNbrs ell n <| enumerateCliquesAndMark adjNbrs k n (List.replicate n 0)
  have marked (ha : a < n) : Marked guilty a b ↔
      (∃ s ∈ cliquesIn G (range n) k, Together s a b) ∨ ∃ s ∈ cliquesIn H (range n) ell, Together s a b := by
    have ⟨hm, hg⟩ := marked_enumerateCliquesAndMark (b := b) hn h hG ha hk (List.length_replicate (n := n) (a := 0))
    have hg' := marked_enumerateCliquesAndMark (b := b) hn h' hH ha hl hm |>.2
    rw [hg', hg, or_iff_right (not_marked_replicate n a b)]
  have row (ha : a < n) : b ∈ bits (guilty.getD a 0 &&& higher a) ↔ a < b ∧ Marked guilty a b := by
    have := lt_of_hasBit (m := guilty.getD a 0) (i := b)
    simp only [mem_bits, hasBit_and, Bool.and_eq_true, hasBit_higher (show a < 63 by omega), decide_eq_true_eq, Marked]
    tauto
  simp only [guiltyEdges, forBits_collect, List.mem_flatMap, List.mem_range, List.mem_map, Finset.mem_sort,
    Prod.mk.injEq]
  constructor
  case mp =>
    rintro ⟨_, ha, _, hb, rfl, rfl⟩
    have ⟨hlt, hb⟩ := row ha |>.mp hb
    exact ⟨ha, hlt, marked ha |>.mp hb⟩
  case mpr =>
    intro ⟨ha, hlt, hb⟩
    exact ⟨a, ha, b, row ha |>.mpr ⟨hlt, marked ha |>.mpr hb⟩, rfl, rfl⟩

end Exact

theorem nodup_guiltyEdges (adjNbrs compNbrs : NeighborSet) (k ell n : Nat) :
    (guiltyEdges adjNbrs compNbrs k ell n).Nodup := by
  simp only [guiltyEdges, forBits_collect]
  refine List.nodup_flatMap.mpr ⟨fun u _ => ?_, ?_⟩
  · exact (Finset.sort_nodup _ _).map fun v w h => (Prod.mk.inj h).2
  · refine List.nodup_range.imp fun hne p hp hq => hne ?_
    have ⟨_, _, h₁⟩ := List.mem_map.mp hp
    have ⟨_, _, h₂⟩ := List.mem_map.mp hq
    exact (Prod.mk.inj <| h₁.trans h₂.symm).1

namespace AdjacencyMatrix

-- The two vertices lie together in a `k`-clique of the graph or an `ell`-clique of its complement.
def Guilty (m : AdjacencyMatrix) (k ell : Nat) (u v : Fin m.n) : Prop :=
  (∃ s, m.graph.IsNClique k s ∧ u ∈ s ∧ v ∈ s) ∨ ∃ s, m.graphᶜ.IsNClique ell s ∧ u ∈ s ∧ v ∈ s

-- The total of `k`-cliques of the graph and `ell`-cliques of its complement.
def monochromatic (m : AdjacencyMatrix) (k ell : Nat) : Nat :=
  m.reds k + m.blues ell

theorem monochromatic_eq (m : AdjacencyMatrix) (k ell : Nat) : m.monochromatic k ell =
    #(cliquesIn m.natGraph (range m.n) k) + #(cliquesIn m.complement.natGraph (range m.n) ell) := by
  rw [monochromatic, ← reds_complement, reds, reds, ← card_cliquesIn_natGraph, ← card_cliquesIn_natGraph, n_complement]

theorem exists_together_iff {G : SimpleGraph Nat} {n k : Nat} {u v : Fin n} (hn : u ≠ v) :
    (∃ s ∈ cliquesIn G (range n) k, Together s u v) ↔
      ∃ s, (G.comap Fin.valEmbedding).IsNClique k s ∧ u ∈ s ∧ v ∈ s := by
  simp only [range_eq_map, mem_cliquesIn_map, Together]
  constructor
  case mp =>
    rintro ⟨_, ⟨s, hs, rfl⟩, hu, hv, _⟩
    exact ⟨s, hs, mem_map' Fin.valEmbedding |>.mp hu, mem_map' Fin.valEmbedding |>.mp hv⟩
  case mpr =>
    intro ⟨s, hs, hu, hv⟩
    exact ⟨_, ⟨s, hs, rfl⟩, mem_map_of_mem Fin.valEmbedding hu, mem_map_of_mem Fin.valEmbedding hv, Fin.val_ne_of_ne hn⟩

theorem guilty_iff {m : AdjacencyMatrix} {k ell : Nat} {u v : Fin m.n} (hn : u ≠ v) : m.Guilty k ell u v ↔
    (∃ s ∈ cliquesIn m.natGraph (range m.n) k, Together s u v) ∨
      ∃ s ∈ cliquesIn m.complement.natGraph (range m.n) ell, Together s u v := by
  rw [exists_together_iff hn, exists_together_iff hn, comap_natGraph, comap_natGraph_complement, Guilty]

section Flip

variable {m : AdjacencyMatrix} {k ell u v : Nat} (hne : u ≠ v) (hu : u < m.n) (hv : v < m.n)
include hne hu hv

-- A clique that does not contain both ends of a pair survives flipping the pair.
theorem cliquesIn_flip (h : ∀ s ∈ cliquesIn m.natGraph (range m.n) k, ¬Together s u v) :
    cliquesIn m.natGraph (range m.n) k ⊆ cliquesIn (m.setEdge u v !(m.edge u v)).natGraph (range m.n) k := by
  intro s hs
  have ⟨hr, hk, hc⟩ := mem_cliquesIn.mp hs
  have e := addsEdge_setEdge hne hu hv
  have hn : ¬(u ∈ s ∧ v ∈ s) := fun ht => h s hs ⟨ht.1, ht.2, hne⟩
  refine mem_cliquesIn.mpr ⟨hr, hk, ?_⟩
  have hm := setEdge_edge hne hu hv
  cases hx : m.edge u v <;> rw [hx] at hm
  case false => exact e.isClique_iff hn |>.mpr <| hm.symm ▸ hc
  case true  => exact e.isClique_iff hn |>.mp <| hm.symm ▸ hc

theorem monochromatic_flip
    (h : ∀ s ∈ cliquesIn m.natGraph (range m.n) k, ¬Together s u v)
    (h' : ∀ s ∈ cliquesIn m.complement.natGraph (range m.n) ell, ¬Together s u v) :
    m.monochromatic k ell ≤ (m.setEdge u v !(m.edge u v)).monochromatic k ell := by
  have hc := cliquesIn_flip (m := m.complement) (k := ell) hne (by simpa) (by simpa) (by simpa)
  rw [edge_complement hu hv hne, ← complement_setEdge hu hv hne, n_complement] at hc
  rw [monochromatic_eq, monochromatic_eq, n_setEdge]
  exact Nat.add_le_add (card_le_card <| cliquesIn_flip hne hu hv h) (card_le_card hc)

end Flip

variable {m : AdjacencyMatrix} (hn : m.n ≤ 62) {k ell : Nat} (hk : 2 ≤ k) (hl : 2 ≤ ell)
include hn hk hl

theorem mem_guiltyEdges {u v : Fin m.n} :
    (u.val, v.val) ∈ guiltyEdges (.fromAdj m) (.fromAdj m.complement) k ell m.n ↔ u < v ∧ m.Guilty k ell u v := by
  have hr : (NeighborSet.fromAdj m.complement).Represents m.complement.natGraph := represents_fromAdj (by simp; omega)
  have hc : ∀ v w, m.complement.natGraph.Adj v w → w < m.n := by simpa using natGraph_lt (m := m.complement)
  rw [mem_guiltyEdges_iff (by omega) (represents_fromAdj (by omega)) natGraph_lt hr hc hk hl]
  simp only [u.isLt, true_and, Fin.val_fin_lt]
  exact and_congr_right fun hlt => (guilty_iff hlt.ne).symm

end AdjacencyMatrix

open AdjacencyMatrix in
-- The guilty edges are the pairs that lie together in a monochromatic clique, each of them once. A
-- flip that lowers the number of these cliques is a flip of a guilty edge.
theorem guiltyEdges_exact {m : AdjacencyMatrix} (hn : m.n ≤ 62) {k ell : Nat} (hk : 2 ≤ k) (hl : 2 ≤ ell) :
    (guiltyEdges (.fromAdj m) (.fromAdj m.complement) k ell m.n).Nodup ∧
    (∀ p, p ∈ guiltyEdges (.fromAdj m) (.fromAdj m.complement) k ell m.n ↔
      ∃ u v : Fin m.n, p = (u.val, v.val) ∧ u < v ∧ m.Guilty k ell u v) ∧
    ∀ u v : Fin m.n, u < v →
      (m.setEdge u v !(m.edge u v)).monochromatic k ell < m.monochromatic k ell →
        (u.val, v.val) ∈ guiltyEdges (.fromAdj m) (.fromAdj m.complement) k ell m.n := by
  refine ⟨nodup_guiltyEdges .., fun p => ⟨fun hp => ?_, ?_⟩, fun u v hlt h => ?_⟩
  case refine_1 =>
    have ⟨h₁, h₂⟩ := mem_pairs.mp <| mem_pairs_of_mem_guiltyEdges hn hp
    exact ⟨⟨p.1, h₁.trans h₂⟩, ⟨p.2, h₂⟩, rfl, mem_guiltyEdges hn hk hl |>.mp hp⟩
  case refine_2 =>
    rintro ⟨u, v, rfl, h⟩
    exact mem_guiltyEdges hn hk hl |>.mpr h
  case refine_3 =>
    refine mem_guiltyEdges hn hk hl |>.mpr ⟨hlt, ?_⟩
    by_contra hg
    rw [guilty_iff hlt.ne, not_or] at hg
    simp only [not_exists, not_and] at hg
    exact absurd h <| not_lt.mpr <| monochromatic_flip (Fin.val_ne_of_ne hlt.ne) u.isLt v.isLt hg.1 hg.2

open AdjacencyMatrix in
-- Opening a triangle.
theorem guiltyEdges_exact_triangle :
    let m := (((new 3).setEdge 0 1 true).setEdge 1 2 true).setEdge 0 2 true
    (guiltyEdges (.fromAdj m) (.fromAdj m.complement) 3 3 m.n).Nodup ∧
      (0, 2) ∈ guiltyEdges (.fromAdj m) (.fromAdj m.complement) 3 3 m.n := by
  intro m
  have ⟨h, _, h'⟩ := guiltyEdges_exact (m := m) (by decide) (by decide : 2 ≤ 3) (by decide : 2 ≤ 3)
  exact ⟨h, h' ⟨0, by decide⟩ ⟨2, by decide⟩ (by decide) (by decide +kernel)⟩
