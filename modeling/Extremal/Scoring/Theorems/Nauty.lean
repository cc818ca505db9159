import Mathlib.Data.List.MinMax
import Mathlib.Data.List.Permutation
import Extremal.Lib.Lexicographic
import Extremal.Graph.Theorems.Adjacency
import Extremal.Scoring.Automorphism

open AdjacencyMatrix

-- What the code relies on nauty for, on graphs of the orders in use: `lab` is a permutation,
-- relabelling by it yields equal graphs for isomorphic inputs, and so does the group order.
structure Crates.LawfulNauty (lib : Crates) : Prop where
  labelling : ∀ m : AdjacencyMatrix, 1 ≤ m.n → m.n ≤ 62 →
    IsLabelling m.n (lib.densenauty m.n (denseGraph m)).1
  canonical : ∀ m₁ m₂ : AdjacencyMatrix, 1 ≤ m₁.n → m₁.n ≤ 62 → Nonempty (m₁.graph ≃g m₂.graph) →
    ∀ i j, i < m₁.n → j < m₁.n →
      m₁.edge ((lib.densenauty m₁.n (denseGraph m₁)).1.getD i 0) ((lib.densenauty m₁.n (denseGraph m₁)).1.getD j 0) =
      m₂.edge ((lib.densenauty m₂.n (denseGraph m₂)).1.getD i 0) ((lib.densenauty m₂.n (denseGraph m₂)).1.getD j 0)
  order : ∀ m₁ m₂ : AdjacencyMatrix, 1 ≤ m₁.n → m₁.n ≤ 62 → Nonempty (m₁.graph ≃g m₂.graph) →
    (lib.densenauty m₁.n (denseGraph m₁)).2 = (lib.densenauty m₂.n (denseGraph m₂)).2

-- A reference labelling by exhaustive search. It shows that the assumptions on nauty can be met.
namespace ReferenceNauty

open Lexicographic

-- The upper triangle of the graph after moving vertex `lab[i]` to position `i`.
def relabelled (n : Nat) (edges : List (Nat × Nat)) (lab : List Nat) : Word Bool where
  symbols := (pairs n).map fun p =>
    edges.contains (lab.getD p.1 0, lab.getD p.2 0) || edges.contains (lab.getD p.2 0, lab.getD p.1 0)

section Minimizer

variable [LinearOrder β] {f : α → β} {l : List α}

def minimizer (f : α → β) (l : List α) : Option α :=
  l.argmin f

theorem minimizer_ne_none (h : l ≠ []) : minimizer f l ≠ none :=
  List.argmin_eq_none.not.mpr h

theorem minimizer_mem {a : α} (h : minimizer f l = some a) : a ∈ l :=
  List.argmin_mem h

theorem minimizer_le {a b : α} (h : minimizer f l = some a) (hb : b ∈ l) : f a ≤ f b :=
  List.le_of_mem_argmin hb h

end Minimizer

def best (n : Nat) (edges : List (Nat × Nat)) : List Nat :=
  minimizer (relabelled n edges) (List.range n).permutations' |>.getD []

def densenauty (n : Nat) (edges : List (Nat × Nat)) : List Nat × Float :=
  let lab := best n edges
  let automorphisms := (List.range n).permutations'.filter (relabelled n edges · = relabelled n edges lab)
  (lab, Float.ofNat automorphisms.length)

variable {m m₁ m₂ : AdjacencyMatrix} {lab : List Nat}

theorem minimizer_eq_best (n : Nat) (edges : List (Nat × Nat)) :
    minimizer (relabelled n edges) (List.range n).permutations' = some (best n edges) := by
  cases h : minimizer (relabelled n edges) (List.range n).permutations'
  case some => simp [best, h]
  case none =>
    refine absurd h <| minimizer_ne_none ?_
    exact List.ne_nil_of_mem <| List.mem_permutations'.mpr (List.Perm.refl (List.range n))

theorem nodup_labellings (n : Nat) : (List.range n).permutations'.Nodup :=
  (List.permutations_perm_permutations' _).nodup_iff.mp <| List.nodup_permutations _ List.nodup_range

theorem isLabelling_best (n : Nat) (edges : List (Nat × Nat)) : IsLabelling n (best n edges) :=
  List.mem_permutations'.mp <| minimizer_mem <| minimizer_eq_best n edges

theorem relabelled_best_le {n : Nat} {edges : List (Nat × Nat)} (h : IsLabelling n lab) :
    relabelled n edges (best n edges) ≤ relabelled n edges lab :=
  minimizer_le (minimizer_eq_best n edges) (List.mem_permutations'.mpr h)

theorem relabelled_denseGraph (h : IsLabelling m.n lab) : relabelled m.n (denseGraph m) lab =
    ⟨(pairs m.n).map fun p => m.edge (lab.getD p.1 0) (lab.getD p.2 0)⟩ := by
  refine congrArg Word.mk <| List.map_congr_left fun ⟨i, j⟩ hp => ?_
  have ⟨hij, hj⟩ := mem_pairs.mp hp
  have hi' := h.getD_lt (show i < m.n by omega)
  have hj' := h.getD_lt hj
  have hne : lab.getD i 0 ≠ lab.getD j 0 := fun he => hij.ne <| h.getD_inj (by omega) hj he
  have hd (a b : Nat) : (a, b) ∈ denseGraph m ↔ (a < b ∧ b < m.n) ∧ m.edge a b := by
    simp [denseGraph, mem_pairs]
  rw [Bool.eq_iff_iff, Bool.or_eq_true, List.contains_iff_mem, List.contains_iff_mem, hd, hd,
    edge_comm m (lab.getD j 0)]
  grind

section Isomorphic

variable (e : m₁.graph ≃g m₂.graph)

def transport (v : Nat) : Nat :=
  if h : v < m₁.n then e ⟨v, h⟩ else v

variable {a b : Nat}

theorem transport_lt (ha : a < m₁.n) : transport e a < m₂.n := by
  simp [transport, ha]

theorem edge_transport (ha : a < m₁.n) (hb : b < m₁.n) : m₂.edge (transport e a) (transport e b) = m₁.edge a b := by
  have := e.map_adj_iff (v := ⟨a, ha⟩) (w := ⟨b, hb⟩)
  rw [transport, transport, dif_pos ha, dif_pos hb]
  exact Bool.eq_iff_iff.mpr this

theorem transport_inj (ha : a < m₁.n) (hb : b < m₁.n) (h : transport e a = transport e b) : a = b := by
  rw [transport, transport, dif_pos ha, dif_pos hb] at h
  exact Fin.mk.inj <| e.injective <| Fin.ext h

theorem n_eq (e : m₁.graph ≃g m₂.graph) : m₁.n = m₂.n := by
  simpa using Fintype.card_congr e.toEquiv

theorem getD_map_transport (h : IsLabelling m₁.n lab) (ha : a < m₁.n) :
    (lab.map (transport e)).getD a 0 = transport e (lab.getD a 0) := by
  have hl := h.length_eq ▸ ha
  rw [List.getD_eq_getElem _ _ (by simpa), List.getElem_map, List.getD_eq_getElem _ _ hl]

theorem isLabelling_map_transport (h : IsLabelling m₁.n lab) : IsLabelling m₂.n (lab.map (transport e)) := by
  have hc := n_eq e
  refine isLabelling_of_inj (by simp [h.length_eq, hc]) (fun i hi => ?_) fun i j hi hj he => ?_
  · rw [getD_map_transport e h (by omega)]
    exact transport_lt e (h.getD_lt (by omega))
  · rw [getD_map_transport e h (by omega), getD_map_transport e h (by omega)] at he
    exact h.getD_inj (by omega) (by omega) <| transport_inj e (h.getD_lt (by omega)) (h.getD_lt (by omega)) he

theorem relabelled_map_transport (h : IsLabelling m₁.n lab) :
    relabelled m₂.n (denseGraph m₂) (lab.map (transport e)) = relabelled m₁.n (denseGraph m₁) lab := by
  rw [relabelled_denseGraph (isLabelling_map_transport e h), relabelled_denseGraph h, ← n_eq e]
  refine congrArg Word.mk <| List.map_congr_left fun ⟨i, j⟩ hp => ?_
  have ⟨hij, hj⟩ := mem_pairs.mp hp
  rw [getD_map_transport e h (by omega), getD_map_transport e h hj]
  exact edge_transport e (h.getD_lt (by omega)) (h.getD_lt hj)

include e

theorem relabelled_best_eq : relabelled m₁.n (denseGraph m₁) (best m₁.n (denseGraph m₁)) =
    relabelled m₂.n (denseGraph m₂) (best m₂.n (denseGraph m₂)) := by
  refine le_antisymm ?_ ?_
  · rw [← relabelled_map_transport e.symm (isLabelling_best ..)]
    exact relabelled_best_le (isLabelling_map_transport e.symm (isLabelling_best ..))
  · rw [← relabelled_map_transport e (isLabelling_best ..)]
    exact relabelled_best_le (isLabelling_map_transport e (isLabelling_best ..))

-- Transporting the labellings that attain a word maps them injectively.
theorem length_automorphisms_le (w : Word Bool) :
    ((List.range m₁.n).permutations'.filter (relabelled m₁.n (denseGraph m₁) · = w)).length ≤
    ((List.range m₂.n).permutations'.filter (relabelled m₂.n (denseGraph m₂) · = w)).length := by
  rw [← List.length_map (List.map (transport e))]
  refine (List.Nodup.subperm ?_ fun lab hl => ?_).length_le
  · refine List.Nodup.map_on (fun l₁ h₁ l₂ h₂ he => ?_) <| (nodup_labellings m₁.n).filter _
    have h₁ : IsLabelling m₁.n l₁ := List.mem_permutations'.mp (List.mem_filter.mp h₁).1
    have h₂ : IsLabelling m₁.n l₂ := List.mem_permutations'.mp (List.mem_filter.mp h₂).1
    refine List.ext_getElem (by simpa using congrArg List.length he) fun i hi hi' => ?_
    refine transport_inj e (h₁.mem_iff.mp <| List.getElem_mem hi) (h₂.mem_iff.mp <| List.getElem_mem hi') ?_
    rw [← List.getElem_map (transport e) (h := by simpa), ← List.getElem_map (transport e) (h := by simpa)]
    simp [he]
  · obtain ⟨lab, hm, rfl⟩ := List.mem_map.mp hl
    have ⟨hm, hw⟩ := List.mem_filter.mp hm
    have hm : IsLabelling m₁.n lab := List.mem_permutations'.mp hm
    refine List.mem_filter.mpr ⟨List.mem_permutations'.mpr (isLabelling_map_transport e hm), ?_⟩
    rwa [relabelled_map_transport e hm]

end Isomorphic

-- Labellings that attain the same word place edges at the same positions.
theorem edge_eq_of_relabelled {lab₁ lab₂ : List Nat} (h₁ : IsLabelling m₁.n lab₁) (h₂ : IsLabelling m₂.n lab₂)
    (hn : m₁.n = m₂.n) (h : relabelled m₁.n (denseGraph m₁) lab₁ = relabelled m₂.n (denseGraph m₂) lab₂) {i j : Nat}
    (hi : i < m₁.n) (hj : j < m₁.n) :
    m₁.edge (lab₁.getD i 0) (lab₁.getD j 0) = m₂.edge (lab₂.getD i 0) (lab₂.getD j 0) := by
  rw [relabelled_denseGraph h₁, relabelled_denseGraph h₂, ← hn] at h
  have hp := List.map_inj_left.mp (Word.mk.inj h)
  rcases Nat.lt_trichotomy i j with h | rfl | h
  case inl     => exact hp (i, j) (mem_pairs.mpr ⟨h, hj⟩)
  case inr.inl => simp
  case inr.inr => rw [edge_comm m₁, edge_comm m₂]; exact hp (j, i) (mem_pairs.mpr ⟨h, hi⟩)

theorem lawfulNauty (blake3 : List UInt8 → GraphCid) : Crates.LawfulNauty ⟨densenauty, blake3⟩ where
  labelling m _ _ := isLabelling_best ..
  canonical m₁ m₂ _ _ := by
    intro ⟨e⟩ i j hi hj
    have he := edge_eq_of_relabelled (isLabelling_best ..) (isLabelling_best ..) (n_eq e) (relabelled_best_eq e) hi hj
    simpa only [densenauty, ← n_eq e] using he
  order m₁ m₂ _ _ := by
    intro ⟨e⟩
    simp only [densenauty, relabelled_best_eq e]
    exact congrArg Float.ofNat <| le_antisymm (length_automorphisms_le e _) (length_automorphisms_le e.symm _)

section Order

variable {best : List Nat} (hb : IsLabelling m.n best)
include hb

theorem map_transport_inj {e e' : m.graph ≃g m.graph} (h : best.map (transport e) = best.map (transport e')) : e = e' := by
  refine RelIso.ext fun v => Fin.ext ?_
  have ⟨i, hi, he⟩ := hb.exists_getD v.isLt
  have := congrArg (·.getD i 0) h
  simp only [getD_map_transport _ hb hi, he, transport, v.isLt, dif_pos] at this
  exact this

-- Two labellings that attain the same word differ by an automorphism.
theorem exists_map_transport (hl : IsLabelling m.n lab)
    (h : relabelled m.n (denseGraph m) lab = relabelled m.n (denseGraph m) best) :
    ∃ e : m.graph ≃g m.graph, best.map (transport e) = lab := by
  let e : m.graph ≃g m.graph := {
    toEquiv      := hb.equiv.symm.trans hl.equiv
    map_rel_iff' := fun {u v} => by
      obtain ⟨i, rfl⟩ := hb.equiv.surjective u
      obtain ⟨j, rfl⟩ := hb.equiv.surjective v
      simp only [Equiv.trans_apply, Equiv.symm_apply_apply]
      exact Bool.eq_iff_iff.mp <| edge_eq_of_relabelled hl hb rfl h i.isLt j.isLt }
  have he (i : Fin m.n) : e (hb.equiv i) = hl.equiv i := congrArg hl.equiv <| hb.equiv.symm_apply_apply i
  refine ⟨e, List.ext_getElem (by simp [hb.length_eq, hl.length_eq]) fun i hi hi' => ?_⟩
  have hin : i < m.n := hl.length_eq ▸ hi'
  have hg := getD_map_transport e hb hin
  have hv : transport e (best.getD i 0) = lab.getD i 0 := by
    rw [transport, dif_pos (hb.getD_lt hin)]
    exact congrArg Fin.val (he ⟨i, hin⟩)
  rw [hv, List.getD_eq_getElem _ _ hi, List.getD_eq_getElem _ _ hi'] at hg
  exact hg

end Order

-- The path with three vertices and the triangle, with the BLAKE3 digests of their canonical graph6
-- strings `BW` and `Bw`.
def path3 : AdjacencyMatrix :=
  (new 3).setEdge 0 1 true |>.setEdge 1 2 true

def triangle : AdjacencyMatrix :=
  path3.setEdge 0 2 true

def digest (bytes : List UInt8) : List UInt8 :=
  if bytes = [66, 87] then
    [146, 49, 175, 25, 99, 29, 125, 86, 228, 188, 93, 200, 19, 243, 252, 127,
     173, 168, 59, 9, 180, 131, 111, 91, 3, 6, 226, 175, 131, 1, 128, 138]
  else if bytes = [66, 119] then
    [102, 116, 220, 67, 6, 133, 19, 117, 198, 232, 205, 163, 166, 48, 65, 30,
     103, 174, 229, 202, 150, 172, 27, 169, 132, 218, 223, 215, 89, 133, 111, 25]
  else List.replicate 32 0

def crates : Crates where
  densenauty   := densenauty
  blake3 bytes := ⟨digest bytes, by rw [digest]; split <;> [rfl; (split <;> rfl)]⟩

end ReferenceNauty
