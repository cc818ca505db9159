import Extremal.Scoring.Theorems.Clique
import Extremal.Scoring.Theorems.Guilty
import Extremal.Strategies.Mirrors

open AdjacencyMatrix Finset

-- The graph has no clique of `k` and no independent set of `ell` vertices.
structure AdjacencyMatrix.RamseyFree (graph : AdjacencyMatrix) (k ell : Nat) : Prop where
  clique : graph.graph.CliqueFree k
  indep  : graph.graph.IndepSetFree ell

structure AdjacencyMatrix.IsRamsey (graph : AdjacencyMatrix) (n k ell : Nat) : Prop extends graph.RamseyFree k ell where
  order : graph.n = n

section Clamp

variable {count : UInt64}

theorem max_toInt64 (h : count.toNat < 2 ^ 63) : max count.toInt64 0 = count.toInt64 := by
  have h₀ : 0 ≤ count.toInt64 := by
    rw [Int64.le_iff_toInt_le, toInt_toInt64 h]
    exact Int.natCast_nonneg _
  refine ite_eq_right_iff.mpr fun hle => ?_
  exact Int64.le_antisymm h₀ hle

theorem clamp_toInt64 (h : count.toNat < 2 ^ 63) : clamp count.toInt64 = count := by
  rw [clamp, max_toInt64 h, UInt64.toUInt64_toInt64]

end Clamp

namespace Mirrors

-- The complement matrix is the complement of the graph, and the neighbour sets are the masks of these
-- two matrices.
structure Consistent (m : Mirrors) : Prop where
  comp     : m.comp = m.graph.complement
  adjNbrs  : m.adjNbrs = .fromAdj m.graph
  compNbrs : m.compNbrs = .fromAdj m.comp

theorem consistent_ofGraph (graph : AdjacencyMatrix) : (ofGraph graph).Consistent where
  comp     := rfl
  adjNbrs  := rfl
  compNbrs := rfl

@[simp]
theorem n_flip {m : Mirrors} {u v : Nat} : (m.flip u v).graph.n = m.graph.n :=
  n_setEdge

def violations (m : Mirrors) (k ell n : Nat) : UInt64 :=
  m.red k n + m.blue ell n

namespace Consistent

variable {m : Mirrors} (h : m.Consistent)
include h

theorem eq_ofGraph : m = ofGraph m.graph := by
  obtain ⟨graph, comp, adjNbrs, compNbrs⟩ := m
  have ⟨h₁, h₂, h₃⟩ := h
  dsimp only at h₁ h₂ h₃
  subst h₁ h₂ h₃
  rfl

theorem red_eq (k : Nat) : m.red k m.graph.n = countCliques (.fromAdj m.graph) k m.graph.n := by
  rw [red, h.adjNbrs]

theorem blue_eq (ell : Nat) :
    m.blue ell m.graph.n = countCliques (.fromAdj m.graph.complement) ell m.graph.complement.n := by
  rw [blue, h.compNbrs, h.comp, n_complement]

section Small

variable (hn : m.graph.n ≤ 62)
include hn

theorem toNat_red (k : Nat) : (m.red k m.graph.n).toNat = #(m.graph.graph.cliqueFinset k) := by
  rw [h.red_eq, toNat_countCliques hn]

theorem toNat_blue (ell : Nat) : (m.blue ell m.graph.n).toNat = #(m.graph.complement.graph.cliqueFinset ell) := by
  rw [h.blue_eq, toNat_countCliques (by simpa)]

theorem red_lt (k : Nat) : (m.red k m.graph.n).toNat < 2 ^ 62 := by
  rw [h.toNat_red hn]
  exact card_cliqueFinset_lt hn k

theorem blue_lt (ell : Nat) : (m.blue ell m.graph.n).toNat < 2 ^ 62 := by
  rw [h.toNat_blue hn]
  exact card_cliqueFinset_lt (by simpa) ell

theorem toNat_violations (k ell : Nat) : (m.violations k ell m.graph.n).toNat =
    (m.red k m.graph.n).toNat + (m.blue ell m.graph.n).toNat := by
  have h₁ := h.red_lt hn k
  have h₂ := h.blue_lt hn ell
  rw [violations, UInt64.toNat_add]
  omega

theorem violations_lt (k ell : Nat) : (m.violations k ell m.graph.n).toNat < 2 ^ 63 := by
  have h₁ := h.red_lt hn k
  have h₂ := h.blue_lt hn ell
  rw [h.toNat_violations hn]
  omega

-- A graph without violations is one without the cliques and the independent sets in question.
theorem violations_eq_zero_iff {k ell : Nat} :
    m.violations k ell m.graph.n = 0 ↔ m.graph.RamseyFree k ell := by
  have hb : m.graph.complement.graph.CliqueFree ell ↔ m.graph.graph.IndepSetFree ell := by
    rw [← SimpleGraph.cliqueFree_compl]
    exact ⟨.comap ⟨m.graph.complGraphIso.symm.toCopy⟩, .comap ⟨m.graph.complGraphIso.toCopy⟩⟩
  rw [← UInt64.toNat_inj, h.toNat_violations hn, h.toNat_red hn, h.toNat_blue hn, UInt64.toNat_zero,
    Nat.add_eq_zero_iff, card_eq_zero, card_eq_zero, SimpleGraph.cliqueFinset_eq_empty_iff,
    SimpleGraph.cliqueFinset_eq_empty_iff, hb]
  exact ⟨fun ⟨clique, indep⟩ => { clique, indep }, fun ⟨clique, indep⟩ => ⟨clique, indep⟩⟩

theorem mem_pairs_of_guilty {k ell : Nat} {p : Nat × Nat}
    (hp : p ∈ guiltyEdges m.adjNbrs m.compNbrs k ell m.graph.n) : p ∈ pairs m.graph.n := by
  rw [h.adjNbrs, h.compNbrs, h.comp] at hp
  exact mem_pairs_of_mem_guiltyEdges hn hp

omit hn in
theorem violations_iff {n : Nat} (k ell : Nat) (ho : m.graph.n = n) (hn : n ≤ 62) :
    m.violations k ell n = 0 ↔ m.graph.RamseyFree k ell := by
  obtain rfl := ho
  exact h.violations_eq_zero_iff hn

theorem isRamsey {n k ell : Nat} (ho : m.graph.n = n) (hv : m.violations k ell n = 0) : m.graph.IsRamsey n k ell := by
  obtain rfl := ho
  exact ⟨h.violations_eq_zero_iff hn |>.mp hv, rfl⟩

variable {u v : Nat} (hp : (u, v) ∈ pairs m.graph.n)
include hp

theorem flip : (m.flip u v).Consistent := by
  have ⟨hlt, hv⟩ := mem_pairs.mp hp
  have hu := hlt.trans hv
  have hc : m.comp.edge u v = !m.graph.edge u v := h.comp ▸ edge_complement hu hv hlt.ne
  have hcomp : m.comp.setEdge u v (m.graph.edge u v) = (m.graph.setEdge u v !m.graph.edge u v).complement := by
    rw [complement_setEdge hu hv hlt.ne, h.comp, Bool.not_not]
  constructor
  case comp     => exact hcomp
  case adjNbrs  => simp only [Mirrors.flip, h.adjNbrs, fromAdj_flip hn hlt.ne hu hv]
  case compNbrs =>
    have hn' : m.comp.n = m.graph.n := by rw [h.comp, n_complement]
    have := fromAdj_flip (m := m.comp) (by omega) hlt.ne (hn' ▸ hu) (hn' ▸ hv)
    rw [hc, Bool.not_not] at this
    simp only [Mirrors.flip, h.compNbrs, this]

theorem flip_flip : (m.flip u v).flip u v = m := by
  have ⟨hlt, hv⟩ := mem_pairs.mp hp
  have hu := hlt.trans hv
  have hf := h.flip hn hp
  have hg : ((m.flip u v).flip u v).graph = m.graph := by
    simp only [Mirrors.flip, edge_setEdge hlt.ne hu hv hu hv, if_true, Bool.not_not,
      setEdge_setEdge hlt.ne hu hv, setEdge_edge hlt.ne hu hv]
  rw [(hf.flip (by simpa) (by simpa)).eq_ofGraph, hg, ← h.eq_ofGraph]

variable {k ell : Nat} (hk : 2 ≤ k) (hl : 2 ≤ ell)
include hk hl

-- The deltas lead to the counts after the flip.
theorem delta_eq :
    (m.red k m.graph.n).toInt64 + (m.delta k ell u v).1 = ((m.flip u v).red k m.graph.n).toInt64 ∧
      (m.blue ell m.graph.n).toInt64 + (m.delta k ell u v).2 = ((m.flip u v).blue ell m.graph.n).toInt64 := by
  have ⟨hlt, hv⟩ := mem_pairs.mp hp
  obtain ⟨k, rfl⟩ := Nat.exists_eq_add_of_le' hk
  obtain ⟨ell, rfl⟩ := Nat.exists_eq_add_of_le' hl
  have hd := violationDelta_eq hn hlt.ne (hlt.trans hv) hv (k + 2) (ell + 2)
  have hf := h.flip hn hp
  have hr := hf.red_eq (k + 2)
  have hb := hf.blue_eq (ell + 2)
  simp only [n_flip, n_complement] at hr hb
  rw [delta, h.adjNbrs, h.compNbrs, h.comp, hd, h.red_eq, h.blue_eq, hr, hb]
  simp only [Mirrors.flip, n_complement]
  grind

theorem violations_flip : (m.violations k ell m.graph.n).toInt64 + ((m.delta k ell u v).1 + (m.delta k ell u v).2) =
    ((m.flip u v).violations k ell m.graph.n).toInt64 := by
  have ⟨hr, hb⟩ := h.delta_eq hn hp hk hl
  rw [violations, violations, UInt64.toInt64_add, UInt64.toInt64_add, ← hr, ← hb]
  grind

-- A flip whose deltas cancel out leaves a valid graph valid.
theorem ramseyFree_flip (hf : m.graph.RamseyFree k ell)
    (hd : (m.delta k ell u v).1 + (m.delta k ell u v).2 = 0) : (m.flip u v).graph.RamseyFree k ell := by
  have hv := h.violations_flip hn hp hk hl
  rw [(h.violations_eq_zero_iff hn).mpr hf, hd] at hv
  have h₀ : (m.flip u v).violations k ell (m.flip u v).graph.n = 0 := by
    rw [n_flip]
    exact congrArg Int64.toUInt64 hv.symm
  exact (h.flip hn hp).violations_eq_zero_iff (by simpa) |>.mp h₀

end Small
end Consistent
end Mirrors
