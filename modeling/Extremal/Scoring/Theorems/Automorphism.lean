import Extremal.Graph.Theorems.Graph6
import Extremal.Scoring.Theorems.Nauty

open AdjacencyMatrix

section Inverse

variable {n i : Nat} {lab : List Nat}

theorem length_invertLab : (invertLab n lab).length = n := by
  refine Loop.foldl_induction (fun l : List Nat => l.length = n) (fun l p _ h => ?_) (by simp)
  simpa using h

-- Writing position `i` to entry `lab[i]` for every `i` inverts the permutation.
theorem getD_invertLab (h : IsLabelling n lab) (hi : i < n) : (invertLab n lab).getD (lab.getD i 0) 0 = i := by
  have hl := h.length_eq
  have hv := h.getD_lt hi
  have hp : (lab.getD i 0, i) ∈ lab.zipIdx := by
    rw [List.mem_zipIdx_iff_getElem?, List.getD_eq_getElem _ _ (hl ▸ hi)]
    exact List.getElem?_eq_getElem (hl ▸ hi)
  have inj {p : Nat × Nat} (hp : p ∈ lab.zipIdx) (ht : p.1 = lab.getD i 0) : p.2 = i := by
    have hg := List.mem_zipIdx_iff_getElem?.mp hp
    refine h.getD_inj (hl ▸ (List.getElem?_eq_some_iff.mp hg).1) hi ?_
    rw [← ht, List.getD_eq_getElem?_getD, hg]
    rfl
  generalize lab.getD i 0 = v at *
  have hw : Loop.Writes (fun (invLab : List Nat) (p : Nat × Nat) => invLab.set p.1 p.2) (·.length = n)
      (·.getD v 0) (·.1 = v) i lab.zipIdx := {
    inv  := fun l p _ hl => by simpa using hl
    hit  := fun l p hp hl ht => by
      simp [ht, inj hp ht, List.getD_eq_getElem?_getD, hl, hv]
    miss := fun l p hp hl ht => by
      simp [List.getD_eq_getElem?_getD, ht] }
  exact hw.foldl_hit (by simp) (.inr ⟨_, hp, rfl⟩)

theorem isLabelling_invertLab (h : IsLabelling n lab) : IsLabelling n (invertLab n lab) := by
  have hv (v) (hv : v < n) : ∃ i < n, lab.getD i 0 = v ∧ (invertLab n lab).getD v 0 = i := by
    obtain ⟨i, hi, rfl⟩ := h.exists_getD hv
    exact ⟨i, hi, rfl, getD_invertLab h hi⟩
  refine isLabelling_of_inj length_invertLab (fun v h => ?_) fun v w hv' hw he => ?_
  · have ⟨i, hi, _, he⟩ := hv v h
    exact he ▸ hi
  · obtain ⟨i, _, rfl, h₁⟩ := hv v hv'
    obtain ⟨j, _, rfl, h₂⟩ := hv w hw
    rw [h₁, h₂] at he
    rw [he]

end Inverse

section Canonical

variable {lib : Crates} (nauty : lib.LawfulNauty) {m m₁ m₂ : AdjacencyMatrix}

theorem canonicalForm_zero (h : m.n = 0) : canonicalForm lib m = (.new 0, 1.0) :=
  if_pos h

theorem canonicalForm_pos (h : m.n ≠ 0) : canonicalForm lib m =
    (m.permuteVertices (invertLab m.n (lib.densenauty m.n (denseGraph m)).1),
      (lib.densenauty m.n (denseGraph m)).2) := by
  simp [canonicalForm, runNauty, h]

include nauty

theorem isLabelling_canonicalForm (h : m.n ≠ 0) (hn : m.n ≤ 62) :
    IsLabelling m.n (invertLab m.n (lib.densenauty m.n (denseGraph m)).1) :=
  isLabelling_invertLab <| nauty.labelling m (by omega) hn

theorem cleanOn_canonicalForm (hn : m.n ≤ 62) : CleanOn m.n (canonicalForm lib m).1 := by
  by_cases h : m.n = 0
  case pos => rw [canonicalForm_zero h, h]; exact cleanOn_new 0
  case neg => rw [canonicalForm_pos h]; exact cleanOn_permuteVertices (isLabelling_canonicalForm nauty h hn)

-- The canonical form of a graph is isomorphic to it.
theorem nonempty_canonicalIso (hn : m.n ≤ 62) : Nonempty (m.graph ≃g (canonicalForm lib m).1.graph) := by
  by_cases h : m.n = 0
  case neg => rw [canonicalForm_pos h]; exact ⟨permuteIso (isLabelling_canonicalForm nauty h hn)⟩
  case pos =>
    rw [canonicalForm_zero h]
    have : IsEmpty (Fin m.n) := by rw [h]; infer_instance
    exact ⟨⟨finCongr h, fun {i} => isEmptyElim i⟩⟩

theorem edge_canonicalForm (h : m.n ≠ 0) (hn : m.n ≤ 62) {i j : Nat} (hi : i < m.n) (hj : j < m.n) :
    (canonicalForm lib m).1.edge i j =
      m.edge ((lib.densenauty m.n (denseGraph m)).1.getD i 0) ((lib.densenauty m.n (denseGraph m)).1.getD j 0) := by
  have hl := nauty.labelling m (by omega) hn
  rw [canonicalForm_pos h, ← edge_permuteVertices (isLabelling_invertLab hl) (hl.getD_lt hi) (hl.getD_lt hj),
    getD_invertLab hl hi, getD_invertLab hl hj]

-- Isomorphic graphs have the same canonical form and the same group order.
theorem canonicalForm_eq (hn : m₁.n ≤ 62) (e : m₁.graph ≃g m₂.graph) : canonicalForm lib m₁ = canonicalForm lib m₂ := by
  have hc : m₁.n = m₂.n := by simpa using Fintype.card_congr e.toEquiv
  by_cases h : m₁.n = 0
  case pos => rw [canonicalForm_zero h, canonicalForm_zero (hc ▸ h)]
  have h₁ := cleanOn_canonicalForm nauty hn
  have h₂ := cleanOn_canonicalForm nauty (hc ▸ hn)
  refine Prod.ext (h₁.2.ext h₂.2 (by rw [h₁.1, h₂.1, hc]) fun i j hij hj => ?_) ?_
  · rw [h₁.1] at hj
    rw [edge_canonicalForm nauty h hn (by omega) hj,
      edge_canonicalForm nauty (hc ▸ h) (hc ▸ hn) (by omega) (hc ▸ hj)]
    exact nauty.canonical m₁ m₂ (by omega) hn ⟨e⟩ i j (by omega) hj
  · rw [canonicalForm_pos h, canonicalForm_pos (hc ▸ h)]
    exact nauty.order m₁ m₂ (by omega) hn ⟨e⟩

-- Graphs whose canonical forms have the same encoding are isomorphic.
theorem nonempty_iso_of_encode (h₁ : m₁.n ≤ 62) (h₂ : m₂.n ≤ 62)
    (h : Graph6.encode (canonicalForm lib m₁).1 = Graph6.encode (canonicalForm lib m₂).1) :
    Nonempty (m₁.graph ≃g m₂.graph) := by
  have c₁ := cleanOn_canonicalForm nauty h₁
  have c₂ := cleanOn_canonicalForm nauty h₂
  have hs := Graph6.encode_inj (by rwa [c₁.1]) (by rwa [c₂.1]) h
  have he := c₁.2.ext c₂.2 hs.n fun i j hi hj => hs.edge i j (by omega) hj
  have ⟨e₁⟩ := nonempty_canonicalIso nauty h₁
  have ⟨e₂⟩ := nonempty_canonicalIso nauty h₂
  rw [← he] at e₂
  exact ⟨e₁.trans e₂.symm⟩

end Canonical

-- Content addressing identifies exactly the isomorphism classes.
theorem computeCid_canonicalForm_iff {lib : Crates} (nauty : lib.LawfulNauty) {m₁ m₂ : AdjacencyMatrix}
    (h₁ : m₁.n ≤ 62) (h₂ : m₂.n ≤ 62)
    (blake3 : lib.blake3 (Graph6.encode (canonicalForm lib m₁).1) = lib.blake3 (Graph6.encode (canonicalForm lib m₂).1) →
      Graph6.encode (canonicalForm lib m₁).1 = Graph6.encode (canonicalForm lib m₂).1) :
    computeCid lib (canonicalForm lib m₁).1 = computeCid lib (canonicalForm lib m₂).1 ↔
      Nonempty (m₁.graph ≃g m₂.graph) := by
  constructor
  case mpr =>
    intro ⟨e⟩
    rw [canonicalForm_eq nauty h₁ e]
  case mp =>
    intro h
    exact nonempty_iso_of_encode nauty h₁ h₂ (blake3 h)

open ReferenceNauty in
theorem computeCid_path3 :
    computeCid crates (canonicalForm crates path3).1 =
      computeCid crates (canonicalForm crates (path3.permuteVertices [1, 0, 2])).1 ∧
    ¬Nonempty (path3.graph ≃g triangle.graph) := by
  have hp : IsLabelling path3.n [1, 0, 2] := by show List.Perm _ _; decide +kernel
  constructor
  case left  =>
    exact computeCid_canonicalForm_iff (lawfulNauty _) (by decide) (by decide +kernel) (by decide +kernel)
      |>.mpr ⟨permuteIso hp⟩
  case right =>
    exact computeCid_canonicalForm_iff (lawfulNauty crates.blake3) (by decide) (by decide) (by decide +kernel)
      |>.not.mp (by decide +kernel)
