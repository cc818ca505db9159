import Mathlib.Data.Set.Function
import Mathlib.Order.Interval.Set.Defs
import Extremal.Graph.Theorems.RoundTrip

-- The matrix as a symmetric function of two vertices.

namespace AdjacencyMatrix

variable {m : AdjacencyMatrix} {perm perm' : List Nat} {n a b : Nat}

-- The upper triangle is numbered without gaps and without collisions.
theorem bijOn_bitIndex (n : Nat) :
    Set.BijOn (fun p : Nat × Nat => bitIndex n p.1 p.2) {p | p.1 < p.2 ∧ p.2 < n} (Set.Iio (totalBits n)) := by
  rw [totalBits_eq]
  refine ⟨fun p hp => bitIndex_lt hp.1 hp.2, fun p hp q hq he => ?_, fun k hk => ?_⟩
  · have ⟨h₁, h₂⟩ := bitIndex_inj hp hq he
    exact Prod.ext h₁ h₂
  · have ⟨i, j, hi, hj, he⟩ := exists_bitIndex hk
    exact ⟨(i, j), ⟨hi, hj⟩, he⟩

section Panics

theorem complement?_eq (m : AdjacencyMatrix) : m.complement? = some m.complement := by
  refine Loop.foldlM_some (CleanOn m.n) (fun comp p hp hc => ?_) (cleanOn_new m.n)
  have ⟨hi, hj⟩ := mem_pairs.mp hp
  have hn := hc.1
  refine ⟨?_, hc.setEdge (by omega) (by omega)⟩
  rw [edge?_eq (by omega) hj]
  exact setEdge?_eq (by omega) (by omega) _

theorem permuteVertices?_eq (hl : perm.length = m.n) (h : ∀ v < m.n, perm.getD v 0 < m.n) :
    m.permuteVertices? perm = some (m.permuteVertices perm) := by
  rw [permuteVertices?, if_neg (by simpa using hl)]
  refine Loop.foldlM_some (CleanOn m.n) (fun result p hp hr => ?_) (cleanOn_new m.n)
  have ⟨hi, hj⟩ := mem_pairs.mp hp
  have hn := hr.1
  have hp (v) (hv : v < m.n) : perm[v]? = some (perm.getD v 0) := by
    rw [List.getD_eq_getElem _ _ (hl ▸ hv), List.getElem?_eq_getElem]
  rw [edge?_eq (by omega) hj, hp p.1 (by omega), hp p.2 hj]
  cases m.edge p.1 p.2
  case false => exact ⟨rfl, hr⟩
  case true  =>
    have h₁ := h p.1 (by omega)
    have h₂ := h p.2 hj
    exact ⟨setEdge?_eq (by omega) (by omega) _, hr.setEdge h₁ h₂⟩

end Panics

section Group

-- Relabelling by `perm` and then by `perm'`.
def relabelBoth (perm perm' : List Nat) : List Nat :=
  perm.map (perm'.getD · 0)

-- `inverseLabels perm` maps each new label back to its old vertex.
def inverseLabels (perm : List Nat) : List Nat :=
  (List.range perm.length).map (perm.idxOf ·)

namespace IsLabelling

theorem getD_relabelBoth (h : IsLabelling n perm) (ha : a < n) :
    (relabelBoth perm perm').getD a 0 = perm'.getD (perm.getD a 0) 0 := by
  have hl := h.length_eq ▸ ha
  rw [relabelBoth, List.getD_eq_getElem _ _ (by simpa), List.getElem_map, List.getD_eq_getElem perm _ hl]

theorem getD_inverseLabels (h : IsLabelling n perm) (ha : a < n) :
    (inverseLabels perm).getD (perm.getD a 0) 0 = a := by
  have hl := h.length_eq ▸ ha
  have hp : perm.getD a 0 < (inverseLabels perm).length := by
    simpa [inverseLabels, h.length_eq] using h.getD_lt ha
  rw [List.getD_eq_getElem _ _ hp]
  simp only [inverseLabels, List.getElem_map, List.getElem_range]
  rw [List.getD_eq_getElem _ _ hl, h.nodup.idxOf_getElem]

theorem both (h : IsLabelling n perm) (h' : IsLabelling n perm') : IsLabelling n (relabelBoth perm perm') := by
  refine isLabelling_of_inj (by simp [relabelBoth, h.length_eq]) (fun i hi => ?_) fun i j hi hj he => ?_
  · rw [h.getD_relabelBoth hi]
    exact h'.getD_lt <| h.getD_lt hi
  · rw [h.getD_relabelBoth hi, h.getD_relabelBoth hj] at he
    exact h.getD_inj hi hj <| h'.getD_inj (h.getD_lt hi) (h.getD_lt hj) he

theorem inverse (h : IsLabelling n perm) : IsLabelling n (inverseLabels perm) := by
  refine isLabelling_of_inj (by simp [inverseLabels, h.length_eq]) (fun i hi => ?_) fun i j hi hj he => ?_
  · have ⟨a, ha, he⟩ := h.exists_getD hi
    rwa [← he, h.getD_inverseLabels ha]
  · have ⟨a, ha, hea⟩ := h.exists_getD hi
    have ⟨b, hb, heb⟩ := h.exists_getD hj
    rw [← hea, ← heb, h.getD_inverseLabels ha, h.getD_inverseLabels hb] at he
    rw [← hea, ← heb, he]

end IsLabelling

theorem permuteVertices_relabelBoth (h : IsLabelling m.n perm) (h' : IsLabelling m.n perm') :
    (m.permuteVertices perm).permuteVertices perm' = m.permuteVertices (relabelBoth perm perm') := by
  have hn := n_permuteVertices h
  have hb := h.both h'
  have hn' := n_permuteVertices hb
  have h'' : IsLabelling (m.permuteVertices perm).n perm' := hn ▸ h'
  refine (cleanOn_permuteVertices h'').2.ext (cleanOn_permuteVertices hb).2 ?_ fun i j hi hj => ?_
  · rw [n_permuteVertices h'', hn, hn']
  · rw [n_permuteVertices h'', hn] at hj
    have ⟨a, ha, hea⟩ := hb.exists_getD (hi.trans hj)
    have ⟨b, hb', heb⟩ := hb.exists_getD hj
    rw [← hea, ← heb, edge_permuteVertices hb ha hb', h.getD_relabelBoth ha, h.getD_relabelBoth hb',
      edge_permuteVertices h'' (hn ▸ h.getD_lt ha) (hn ▸ h.getD_lt hb'), edge_permuteVertices h ha hb']

theorem permuteVertices_inverseLabels (h : IsLabelling m.n perm) :
    ((m.permuteVertices perm).permuteVertices (inverseLabels perm)).SameEdges m := by
  have hn := n_permuteVertices h
  have hi : IsLabelling (m.permuteVertices perm).n (inverseLabels perm) := hn ▸ h.inverse
  have hn' := (n_permuteVertices hi).trans hn
  refine ⟨hn', fun a b ha hb => ?_⟩
  rw [hn'] at ha hb
  have he := edge_permuteVertices hi (hn ▸ h.getD_lt ha) (hn ▸ h.getD_lt hb)
  rw [h.getD_inverseLabels ha, h.getD_inverseLabels hb] at he
  rw [he, edge_permuteVertices h ha hb]

end Group

-- Every access of the functions is in bounds, and they act on the edge function as on a set of vertex pairs.
theorem packed_edge_function (n : Nat) :
    Set.BijOn (fun p : Nat × Nat => bitIndex n p.1 p.2) {p | p.1 < p.2 ∧ p.2 < n} (Set.Iio (totalBits n)) ∧
    ∀ m : AdjacencyMatrix, m.n = n →
      (∀ i j, i < n → j < n → m.edge? i j = some (m.edge i j) ∧ m.edge i j = m.edge j i) ∧
      (∀ i j b, i < n → j < n → i ≠ j → ∃ m', m.setEdge? i j b = some m' ∧ m'.n = n ∧
        ∀ u v, u < n → v < n → m'.edge u v = if s(u, v) = s(i, j) then b else m.edge u v) ∧
      (∃ m', m.complement? = some m' ∧ m'.n = n ∧ (∀ i j, i < n → j < n → i ≠ j → m'.edge i j = !m.edge i j) ∧
        ∃ m'', m'.complement? = some m'' ∧ m''.SameEdges m) ∧
      ∀ p, IsLabelling n p → ∃ m', m.permuteVertices? p = some m' ∧ m'.n = n ∧
        (∀ i j, i < n → j < n → m'.edge (p.getD i 0) (p.getD j 0) = m.edge i j) ∧
        (∀ q, IsLabelling n q → ∃ m'', m'.permuteVertices? q = some m'' ∧
          m.permuteVertices? (relabelBoth p q) = some m'') ∧
        (∀ i < n, (inverseLabels p).getD (p.getD i 0) 0 = i) ∧
        ∃ m'', m'.permuteVertices? (inverseLabels p) = some m'' ∧ m''.SameEdges m := by
  refine ⟨bijOn_bitIndex n, ?_⟩
  rintro m rfl
  have hp {m : AdjacencyMatrix} {p} (h : IsLabelling m.n p) : m.permuteVertices? p = some (m.permuteVertices p) :=
    permuteVertices?_eq h.length_eq fun _ => h.getD_lt
  refine ⟨fun i j hi hj => ⟨edge?_eq hi hj, edge_comm ..⟩, fun i j b hi hj hne => ?_, ?_, fun p h => ?_⟩
  · exact ⟨_, setEdge?_eq hi hj b, n_setEdge, fun u v hu hv => edge_setEdge hne hi hj hu hv⟩
  · exact ⟨_, complement?_eq m, n_complement, fun i j hi hj => edge_complement hi hj,
      _, complement?_eq _, m.complement_complement⟩
  · have hn := n_permuteVertices h
    refine ⟨_, hp h, hn, fun i j hi hj => edge_permuteVertices h hi hj, fun q hq => ?_, fun i hi => ?_, ?_⟩
    · exact ⟨_, hp (hn ▸ hq), by rw [permuteVertices_relabelBoth h hq, hp (h.both hq)]⟩
    · exact h.getD_inverseLabels hi
    · exact ⟨_, hp (hn ▸ h.inverse), permuteVertices_inverseLabels h⟩

end AdjacencyMatrix
