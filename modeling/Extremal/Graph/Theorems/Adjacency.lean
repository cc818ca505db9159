import Mathlib.Combinatorics.SimpleGraph.Maps
import Mathlib.Data.List.GetD
import Mathlib.Tactic.Ring
import Extremal.Lib.Loop
import Extremal.Graph.Adjacency

theorem getD_mem {l : List α} {i : Nat} {d : α} (h : i < l.length) : l.getD i d ∈ l := by
  rw [List.getD_eq_getElem _ _ h]
  exact List.getElem_mem h

theorem mem_pairs {n i j : Nat} : (i, j) ∈ pairs n ↔ i < j ∧ j < n := by
  simp only [pairs, List.mem_flatMap, List.mem_range, List.mem_map, List.mem_range'_1, Prod.mk.injEq]
  constructor
  case mp  => rintro ⟨_, _, _, _, rfl, rfl⟩; omega
  case mpr => exact fun h => ⟨i, by omega, j, by omega, rfl, rfl⟩

namespace AdjacencyMatrix

-- The number of bits that the rows before row `i` take up.
def rowStart (n i : Nat) : Nat :=
  i * n - i * (i + 1) / 2

theorem rowStart_succ {n i : Nat} (h : i < n) : rowStart n (i + 1) = rowStart n i + (n - (i + 1)) := by
  have h₁ : (i + 1) * (i + 1 + 1) / 2 = i * (i + 1) / 2 + (i + 1) := by
    rw [show (i + 1) * (i + 1 + 1) = i * (i + 1) + (i + 1) * 2 by ring]
    exact Nat.add_mul_div_right _ _ (by decide)
  have h₂ : i * (i + 1) / 2 ≤ i * n := by
    have : i * (i + 1) ≤ i * n := Nat.mul_le_mul_left _ h
    omega
  rw [rowStart, rowStart, h₁, Nat.succ_mul]
  omega

theorem rowStart_self (n : Nat) : rowStart n n = n * (n - 1) / 2 := by
  cases n
  case zero => rfl
  case succ n =>
    have h : (n + 1) * (n + 1 + 1) = (n + 1) * n + (n + 1) * 2 := by ring
    have h₁ : (n + 1) * (n + 1) = (n + 1) * n + (n + 1) := by ring
    obtain ⟨c, hc⟩ : 2 ∣ (n + 1) * n := by
      rw [mul_comm]; exact (Nat.even_mul_succ_self n).two_dvd
    simp only [rowStart, h, h₁, Nat.add_mul_div_right _ _ (by decide : 0 < 2), Nat.add_sub_cancel]
    omega

-- The bit positions of the pairs, in the order of the loops, are `0, 1, 2, ...`.
theorem pairs_map_bitIndex (n : Nat) :
    (pairs n).map (fun p => bitIndex n p.1 p.2) = List.range (n * (n - 1) / 2) := by
  have row (i) : (List.range' (i + 1) (n - (i + 1))).map (bitIndex n i) =
      List.range' (rowStart n i) (n - (i + 1)) := by
    refine List.ext_getElem (by simp) fun k _ _ => ?_
    simp only [List.getElem_map, List.getElem_range', bitIndex, rowStart]
    omega
  have rows (k) (hk : k ≤ n) : (List.range k).flatMap (fun i => List.range' (rowStart n i) (n - (i + 1))) =
      List.range (rowStart n k) := by
    induction k
    case zero => simp [rowStart]
    case succ k ih =>
      rw [List.range_succ, List.flatMap_append, ih (by omega), rowStart_succ hk, List.range_add]
      simp [List.range'_eq_map_range]
  rw [← rowStart_self, ← rows n le_rfl]
  simp only [pairs, List.map_flatMap, List.map_map, ← row]
  rfl

theorem bitIndex_lt {n i j : Nat} (hi : i < j) (hj : j < n) : bitIndex n i j < n * (n - 1) / 2 := by
  rw [← List.mem_range, ← pairs_map_bitIndex]
  exact List.mem_map_of_mem (mem_pairs.mpr ⟨hi, hj⟩)

theorem bitIndex_inj {n i j i' j' : Nat} (h : i < j ∧ j < n) (h' : i' < j' ∧ j' < n)
    (he : bitIndex n i j = bitIndex n i' j') : i = i' ∧ j = j' := by
  have hn : ((pairs n).map fun p => bitIndex n p.1 p.2).Nodup := by
    rw [pairs_map_bitIndex]; exact List.nodup_range
  exact Prod.mk.inj <| List.inj_on_of_nodup_map hn (mem_pairs.mpr h) (mem_pairs.mpr h') he

theorem exists_bitIndex {n k : Nat} (h : k < n * (n - 1) / 2) :
    ∃ i j, i < j ∧ j < n ∧ bitIndex n i j = k := by
  rw [← List.mem_range, ← pairs_map_bitIndex] at h
  have ⟨⟨i, j⟩, hp, he⟩ := List.mem_map.mp h
  exact ⟨i, j, (mem_pairs.mp hp).1, (mem_pairs.mp hp).2, he⟩

section Edges

variable {m : AdjacencyMatrix} {u v a b : Nat} {x : Bool}

theorem edge_ne (h : m.edge a b) : a ≠ b :=
  fun he => by simp [he] at h

@[simp]
theorem n_new (n : Nat) : (new n).n = n :=
  rfl

@[simp]
theorem n_setEdge : (m.setEdge u v x).n = m.n := by
  rw [setEdge]; split <;> rfl

@[simp]
theorem edge_new (n : Nat) : (new n).edge a b = false := by
  simp [edge, new, PackedBits.get_replicate_zero]

theorem lt_length_bits (hi : a < b) (hj : b < m.n) : bitIndex m.n a b < 8 * m.bits.length := by
  have := bitIndex_lt hi hj
  rw [m.length_bits]
  omega

theorem setEdge_self (h : u = v) : m.setEdge u v x = m := by
  simp [setEdge, h]

-- Matrices of the same order are equal if all their bits, including the padding, are.
theorem ext_get {m₁ m₂ : AdjacencyMatrix} (hn : m₁.n = m₂.n)
    (h : ∀ k < 8 * m₁.bits.length, PackedBits.get m₁.bits k = PackedBits.get m₂.bits k) : m₁ = m₂ := by
  have hb := PackedBits.ext (by rw [m₁.length_bits, m₂.length_bits, hn]) h
  cases m₁; cases m₂
  simp_all

theorem get_setEdge (hn : u ≠ v) (hu : u < m.n) (hv : v < m.n) (k : Nat) :
    PackedBits.get (m.setEdge u v x).bits k =
      if bitIndex m.n (min u v) (max u v) = k then x else PackedBits.get m.bits k := by
  simp only [setEdge, hn, if_false]
  exact PackedBits.get_set (lt_length_bits (by omega) (by omega)) x k

theorem edge_setEdge (hn : u ≠ v) (hu : u < m.n) (hv : v < m.n) (ha : a < m.n) (hb : b < m.n) :
    (m.setEdge u v x).edge a b = if s(a, b) = s(u, v) then x else m.edge a b := by
  by_cases he : a = b
  case pos =>
    subst he
    have : ¬(s(a, a) = s(u, v)) := fun h => hn <| by cases Sym2.eq_iff.mp h <;> grind
    simp [this]
  have hm : min u v < max u v ∧ max u v < m.n := by omega
  have hm' : min a b < max a b ∧ max a b < m.n := by omega
  rw [edge, if_neg he, get_setEdge hn hu hv, edge, if_neg he, n_setEdge]
  congr 1
  refine propext ⟨fun h => ?_, fun h => ?_⟩
  · obtain ⟨h₁, h₂⟩ := bitIndex_inj hm hm' h
    exact Sym2.eq_iff.mpr (by omega)
  · cases Sym2.eq_iff.mp h <;> simp_all [min_comm, max_comm]

theorem setEdge_edge (hn : u ≠ v) (hu : u < m.n) (hv : v < m.n) : m.setEdge u v (m.edge u v) = m := by
  refine ext_get n_setEdge fun k _ => ?_
  rw [get_setEdge hn hu hv]
  split
  case isTrue h  => simp [edge, hn, h]
  case isFalse   => rfl

theorem setEdge_setEdge (hn : u ≠ v) (hu : u < m.n) (hv : v < m.n) (y : Bool) :
    (m.setEdge u v x).setEdge u v y = m.setEdge u v y := by
  refine ext_get (by simp) fun k _ => ?_
  rw [get_setEdge hn (by simpa) (by simpa), get_setEdge hn hu hv, get_setEdge hn hu hv, n_setEdge]
  split <;> rfl

-- The padding bits behind the upper triangle are zero.
def Clean (m : AdjacencyMatrix) : Prop :=
  ∀ k, m.n * (m.n - 1) / 2 ≤ k → PackedBits.get m.bits k = false

theorem clean_new (n : Nat) : (new n).Clean :=
  fun k _ => PackedBits.get_replicate_zero _ k

theorem Clean.setEdge (h : m.Clean) (hu : u < m.n) (hv : v < m.n) : (m.setEdge u v x).Clean := by
  by_cases hn : u = v
  case pos => rwa [setEdge_self hn]
  case neg =>
    intro k hk
    rw [n_setEdge] at hk
    have := bitIndex_lt (n := m.n) (i := min u v) (j := max u v) (by omega) (by omega)
    rw [get_setEdge hn hu hv, if_neg (by omega)]
    exact h k hk

-- A clean matrix is determined by its order and its edges.
theorem Clean.ext {m₁ m₂ : AdjacencyMatrix} (h₁ : m₁.Clean) (h₂ : m₂.Clean) (hn : m₁.n = m₂.n)
    (he : ∀ i j, i < j → j < m₁.n → m₁.edge i j = m₂.edge i j) : m₁ = m₂ := by
  refine ext_get hn fun k _ => ?_
  by_cases hk : k < m₁.n * (m₁.n - 1) / 2
  case neg => rw [h₁ k (by omega), h₂ k (by rw [← hn]; omega)]
  case pos =>
    obtain ⟨i, j, hi, hj, rfl⟩ := exists_bitIndex hk
    simpa [edge, hi.ne, hn, hi.le] using he i j hi hj

end Edges

section Fill

def CleanOn (n : Nat) (m : AdjacencyMatrix) : Prop :=
  m.n = n ∧ m.Clean

theorem cleanOn_new (n : Nat) : CleanOn n (new n) :=
  ⟨rfl, clean_new n⟩

theorem CleanOn.setEdge {n u v x m} (h : CleanOn n m) (hu : u < n) (hv : v < n) :
    CleanOn n (m.setEdge u v x) := by
  obtain ⟨rfl, hc⟩ := h
  exact ⟨n_setEdge, hc.setEdge hu hv⟩

variable {n a b : Nat} {w : Bool} {l : List ι}

-- A loop that sets pairs of an initially empty matrix, seen through one pair `a`, `b`.
theorem setEdge_writes (c x : ι → Bool) (t : ι → Nat × Nat)
    (ht : ∀ p ∈ l, c p → (t p).1 ≠ (t p).2 ∧ (t p).1 < n ∧ (t p).2 < n) (ha : a < n) (hb : b < n)
    (hw : ∀ p ∈ l, c p → s(a, b) = s((t p).1, (t p).2) → x p = w) :
    Loop.Writes (fun m p => if c p then m.setEdge (t p).1 (t p).2 (x p) else m) (CleanOn n)
      (edge · a b) (fun p => c p ∧ s(a, b) = s((t p).1, (t p).2)) w l where
  inv m p hp hm := by
    split
    case isTrue h  => exact hm.setEdge (ht p hp h).2.1 (ht p hp h).2.2
    case isFalse   => exact hm
  hit m p hp := by
    intro ⟨hn, _⟩ ⟨h, he⟩
    have ⟨hne, h₁, h₂⟩ := ht p hp h
    subst hn
    simp only [h, if_true]
    rw [edge_setEdge hne h₁ h₂ ha hb, if_pos he, hw p hp h he]
  miss m p hp := by
    intro ⟨hn, _⟩ he
    by_cases h : c p
    case neg => simp [h]
    have ⟨hne, h₁, h₂⟩ := ht p hp h
    subst hn
    simp only [h, if_true]
    rw [edge_setEdge hne h₁ h₂ ha hb, if_neg (he ⟨h, ·⟩)]

end Fill

section Complement

variable {m : AdjacencyMatrix} {u v a b : Nat} {x : Bool}

theorem complement_writes (ha : a < m.n) (hb : b < m.n) :
    Loop.Writes (fun comp p => comp.setEdge p.1 p.2 !(m.edge p.1 p.2)) (CleanOn m.n) (edge · a b)
      (fun p => true ∧ s(a, b) = s(p.1, p.2)) (!m.edge a b) (pairs m.n) := by
  refine setEdge_writes (fun _ => true) (fun p => !m.edge p.1 p.2) id ?_ ha hb ?_
  · intro p hp _
    have := mem_pairs.mp hp
    simp only [id]
    omega
  · intro p _ _ h
    cases Sym2.eq_iff.mp h <;> simp_all [edge_comm]

theorem cleanOn_complement : CleanOn m.n m.complement := by
  refine Loop.foldl_induction (CleanOn m.n) (fun c p hp hc => ?_) (cleanOn_new _)
  have := mem_pairs.mp hp
  exact hc.setEdge (by omega) (by omega)

@[simp]
theorem n_complement : m.complement.n = m.n :=
  cleanOn_complement.1

theorem clean_complement : m.complement.Clean :=
  cleanOn_complement.2

theorem edge_complement (ha : a < m.n) (hb : b < m.n) (hn : a ≠ b) : m.complement.edge a b = !m.edge a b := by
  refine (complement_writes ha hb).foldl_hit (cleanOn_new _) (.inr ?_)
  exact ⟨(min a b, max a b), mem_pairs.mpr (by omega), rfl, Sym2.eq_iff.mpr (by omega)⟩

-- Flipping a pair of the graph flips the same pair of its complement.
theorem complement_setEdge (hu : u < m.n) (hv : v < m.n) (hn : u ≠ v) :
    (m.setEdge u v x).complement = m.complement.setEdge u v (!x) := by
  refine clean_complement.ext (clean_complement.setEdge (by simpa) (by simpa)) (by simp) fun i j hi hj => ?_
  simp only [n_complement, n_setEdge] at hj
  rw [edge_complement (by simp; omega) (by simpa) hi.ne, edge_setEdge hn hu hv (by omega) hj,
    edge_setEdge hn (by simpa) (by simpa) (by simp; omega) (by simpa), edge_complement (by omega) hj hi.ne]
  split <;> rfl

def complGraphIso (m : AdjacencyMatrix) : m.complement.graph ≃g m.graphᶜ where
  toEquiv := finCongr n_complement
  map_rel_iff' {i j} := by
    have hi : i < m.n := i.isLt.trans_eq n_complement
    have hj : j < m.n := j.isLt.trans_eq n_complement
    simp only [graph, SimpleGraph.compl_adj, finCongr_apply, Fin.val_cast, ne_eq, Fin.ext_iff]
    by_cases h : i.val = j.val
    case pos => simp [h]
    case neg => simp [edge_complement hi hj h, h]

end Complement

section Build

variable {n a b : Nat} {adj : Nat → Nat → Bool}

-- The matrix of order `n` with the edges of a symmetric relation.
def ofAdj (n : Nat) (adj : Nat → Nat → Bool) : AdjacencyMatrix :=
  (pairs n).foldl (fun m p => if adj p.1 p.2 then m.setEdge p.1 p.2 true else m) (new n)

theorem ofAdj_writes (n : Nat) (adj : Nat → Nat → Bool) (ha : a < n) (hb : b < n) :
    Loop.Writes (fun m (p : Nat × Nat) => if adj p.1 p.2 then m.setEdge p.1 p.2 true else m) (CleanOn n) (edge · a b)
      (fun p => adj p.1 p.2 ∧ s(a, b) = s(p.1, p.2)) true (pairs n) := by
  refine setEdge_writes (fun p : Nat × Nat => adj p.1 p.2) (fun _ => true) id ?_ ha hb (fun _ _ _ _ => rfl)
  intro p hp _
  have := mem_pairs.mp hp
  simp only [id]
  omega

theorem n_ofAdj (n : Nat) (adj : Nat → Nat → Bool) : (ofAdj n adj).n = n := by
  refine (Loop.foldl_induction (CleanOn n) (fun m p hp hm => ?_) (cleanOn_new n)).1
  have := mem_pairs.mp hp
  split
  case isTrue  => exact hm.setEdge (by omega) (by omega)
  case isFalse => exact hm

theorem edge_ofAdj (symm : ∀ i j, adj i j = adj j i) (ha : a < n) (hb : b < n) (hne : a ≠ b) :
    (ofAdj n adj).edge a b = adj a b := by
  have hw := ofAdj_writes n adj ha hb
  cases he : adj a b
  case true =>
    refine hw.foldl_hit (cleanOn_new n) (.inr ⟨(min a b, max a b), mem_pairs.mpr (by omega), ?_, ?_⟩)
    · rcases Nat.le_total a b with h | h <;> simp [h, he, symm b a]
    · rcases Nat.le_total a b with h | h <;> simp [h, Sym2.eq_swap]
  case false =>
    refine (hw.foldl_miss (cleanOn_new n) ?_).trans (edge_new n)
    rintro ⟨i, j⟩ _ ⟨hij, hs⟩
    rcases Sym2.eq_iff.mp hs with ⟨rfl, rfl⟩ | ⟨rfl, rfl⟩
    · simp [he] at hij
    · simp [symm b a, he] at hij

-- Every finite graph is stored by some matrix.
theorem exists_graphIso {V : Type} [Fintype V] (G : SimpleGraph V) :
    ∃ m : AdjacencyMatrix, m.n = Fintype.card V ∧ Nonempty (m.graph ≃g G) := by
  classical
  let e := Fintype.equivFin V
  let adj (i j : Nat) : Bool := ∃ v w, (e v).val = i ∧ (e w).val = j ∧ G.Adj v w
  have symm (i j) : adj i j = adj j i := by
    simp only [adj, decide_eq_decide]
    exact ⟨fun ⟨v, w, hv, hw, h⟩ => ⟨w, v, hw, hv, h.symm⟩, fun ⟨v, w, hv, hw, h⟩ => ⟨w, v, hw, hv, h.symm⟩⟩
  have adj_iff (v w) : adj (e v) (e w) ↔ G.Adj v w := by
    simp only [adj, decide_eq_true_eq, Fin.val_inj, e.apply_eq_iff_eq]
    exact ⟨by rintro ⟨_, _, rfl, rfl, h⟩; exact h, fun h => ⟨v, w, rfl, rfl, h⟩⟩
  let m := ofAdj (Fintype.card V) adj
  have hn : m.n = Fintype.card V := n_ofAdj ..
  refine ⟨m, hn, ⟨⟨(finCongr hn).trans e.symm, fun {i j} => ?_⟩⟩⟩
  obtain ⟨v, rfl⟩ := ((finCongr hn).trans e.symm).symm.surjective i
  obtain ⟨w, rfl⟩ := ((finCongr hn).trans e.symm).symm.surjective j
  rw [Equiv.apply_symm_apply, Equiv.apply_symm_apply]
  by_cases h : v = w
  case pos => simp [h]
  case neg =>
    have hne : (e v).val ≠ (e w).val := by simpa [Fin.val_inj] using h
    have he : m.edge (e v) (e w) = adj (e v) (e w) := edge_ofAdj symm (e v).isLt (e w).isLt hne
    exact adj_iff v w |>.symm.trans <| he ▸ .rfl

end Build

section Permute

variable {m : AdjacencyMatrix} {perm : List Nat} {a b : Nat}

-- The labels `0, ..., n - 1` in some order.
def IsLabelling (n : Nat) (perm : List Nat) : Prop :=
  perm.Perm (List.range n)

namespace IsLabelling

variable {n : Nat} (h : IsLabelling n perm)
include h

theorem length_eq : perm.length = n := by
  simpa using List.Perm.length_eq h

theorem nodup : perm.Nodup :=
  List.Perm.nodup_iff h |>.mpr List.nodup_range

theorem mem_iff : a ∈ perm ↔ a < n :=
  List.Perm.mem_iff h |>.trans List.mem_range

theorem getD_lt (ha : a < n) : perm.getD a 0 < n :=
  h.mem_iff.mp <| getD_mem (h.length_eq ▸ ha)

theorem getD_inj (ha : a < n) (hb : b < n) (he : perm.getD a 0 = perm.getD b 0) : a = b := by
  have ha' := h.length_eq ▸ ha
  have hb' := h.length_eq ▸ hb
  rw [List.getD_eq_getElem _ _ ha', List.getD_eq_getElem _ _ hb'] at he
  exact h.nodup.getElem_inj_iff.mp he

theorem exists_getD (ha : a < n) : ∃ i < n, perm.getD i 0 = a := by
  have ⟨i, hi, he⟩ := List.mem_iff_getElem.mp <| h.mem_iff.mpr ha
  exact ⟨i, h.length_eq ▸ hi, by rw [List.getD_eq_getElem _ _ hi, he]⟩

noncomputable def equiv : Fin n ≃ Fin n :=
  Equiv.ofBijective (fun i => ⟨perm.getD i 0, h.getD_lt i.isLt⟩) <| by
    refine Finite.injective_iff_bijective.mp fun i j he => ?_
    exact Fin.ext <| h.getD_inj i.isLt j.isLt (Fin.mk.inj he)

end IsLabelling

theorem isLabelling_of_inj {n : Nat} (hl : perm.length = n) (hlt : ∀ i < n, perm.getD i 0 < n)
    (hinj : ∀ i j, i < n → j < n → perm.getD i 0 = perm.getD j 0 → i = j) : IsLabelling n perm := by
  have hd : perm.Nodup := by
    refine List.nodup_iff_injective_getElem.mpr fun ⟨i, hi⟩ ⟨j, hj⟩ he => Fin.ext ?_
    refine hinj i j (hl ▸ hi) (hl ▸ hj) ?_
    rwa [List.getD_eq_getElem _ _ hi, List.getD_eq_getElem _ _ hj]
  have hs : perm.Subperm (List.range n) := by
    refine hd.subperm fun v hv => ?_
    obtain ⟨i, hi, rfl⟩ := List.mem_iff_getElem.mp hv
    have := hlt i (hl ▸ hi)
    rwa [List.getD_eq_getElem _ _ hi, ← List.mem_range] at this
  exact hs.perm_of_length_le (by simp [hl])

theorem permuteVertices_writes (h : IsLabelling m.n perm) (ha : a < m.n) (hb : b < m.n) :
    Loop.Writes (fun r (p : Nat × Nat) => if m.edge p.1 p.2 then
        r.setEdge (perm.getD p.1 0) (perm.getD p.2 0) true else r) (CleanOn m.n) (edge · a b)
      (fun p => m.edge p.1 p.2 ∧ s(a, b) = s(perm.getD p.1 0, perm.getD p.2 0)) true (pairs m.n) := by
  refine setEdge_writes (fun p : Nat × Nat => m.edge p.1 p.2) (fun _ => true)
    (fun p => (perm.getD p.1 0, perm.getD p.2 0)) ?_ ha hb (fun _ _ _ _ => rfl)
  intro p hp _
  have ⟨h₁, h₂⟩ := mem_pairs.mp hp
  exact ⟨fun he => h₁.ne <| h.getD_inj (by omega) h₂ he, h.getD_lt (by omega), h.getD_lt h₂⟩

theorem cleanOn_relabel (h : ∀ v < m.n, perm.getD v 0 < m.n) : CleanOn m.n (m.permuteVertices perm) := by
  refine Loop.foldl_induction (CleanOn m.n) (fun r p hp hr => ?_) (cleanOn_new _)
  have ⟨h₁, h₂⟩ := mem_pairs.mp hp
  split
  case isTrue  => exact hr.setEdge (h _ (h₁.trans h₂)) (h _ h₂)
  case isFalse => exact hr

theorem cleanOn_permuteVertices (h : IsLabelling m.n perm) : CleanOn m.n (m.permuteVertices perm) :=
  cleanOn_relabel fun _ => h.getD_lt

theorem n_permuteVertices (h : IsLabelling m.n perm) : (m.permuteVertices perm).n = m.n :=
  (cleanOn_permuteVertices h).1

theorem edge_permuteVertices (h : IsLabelling m.n perm) (ha : a < m.n) (hb : b < m.n) :
    (m.permuteVertices perm).edge (perm.getD a 0) (perm.getD b 0) = m.edge a b := by
  have hw := permuteVertices_writes h (h.getD_lt ha) (h.getD_lt hb)
  cases he : m.edge a b
  case true =>
    have hn := edge_ne he
    refine hw.foldl_hit (cleanOn_new _) (.inr ⟨(min a b, max a b), mem_pairs.mpr (by omega), ?_, ?_⟩)
    · rcases Nat.le_total a b with hab | hab <;> simpa [hab, edge_comm] using he
    · rcases Nat.le_total a b with hab | hab <;> simp [hab, Sym2.eq_swap]
  case false =>
    refine (hw.foldl_miss (cleanOn_new _) ?_).trans (edge_new _)
    rintro ⟨i, j⟩ hp ⟨hij, hs⟩
    have := mem_pairs.mp hp
    rcases Sym2.eq_iff.mp hs with ⟨h₁, h₂⟩ | ⟨h₁, h₂⟩ <;>
    · have := h.getD_inj ha (by omega) h₁
      have := h.getD_inj hb (by omega) h₂
      simp_all [edge_comm]

-- Relabelling yields an isomorphic graph.
noncomputable def permuteIso (h : IsLabelling m.n perm) : m.graph ≃g (m.permuteVertices perm).graph where
  toEquiv      := h.equiv.trans <| finCongr (n_permuteVertices h).symm
  map_rel_iff' {i j} := by
    simp only [graph, IsLabelling.equiv, Equiv.trans_apply, Equiv.ofBijective_apply, finCongr_apply,
      Fin.val_cast]
    rw [edge_permuteVertices h i.isLt j.isLt]

end Permute

section Masks

open BitMask

variable {m : AdjacencyMatrix} {u v a b : Nat} {x : Bool}

-- The graph on all numbers with the edges of `m`.
def natGraph (m : AdjacencyMatrix) : SimpleGraph Nat where
  Adj i j  := i < m.n ∧ j < m.n ∧ m.edge i j
  symm     := ⟨fun i j ⟨hi, hj, h⟩ => ⟨hj, hi, by rwa [edge_comm]⟩⟩
  loopless := ⟨fun i => by simp⟩

theorem natGraph_adj : m.natGraph.Adj a b ↔ a < m.n ∧ b < m.n ∧ m.edge a b :=
  .rfl

instance : DecidableRel m.natGraph.Adj :=
  fun i j => inferInstanceAs (Decidable (i < m.n ∧ j < m.n ∧ m.edge i j))

theorem comap_natGraph (m : AdjacencyMatrix) : m.natGraph.comap Fin.valEmbedding = m.graph := by
  ext i j
  simp [natGraph, graph]

theorem comap_natGraph_complement (m : AdjacencyMatrix) :
    m.complement.natGraph.comap (Fin.valEmbedding (n := m.n)) = m.graphᶜ := by
  ext i j
  by_cases h : i = j
  case pos => simp [h]
  case neg => simp [natGraph, graph, h, edge_complement i.isLt j.isLt (Fin.val_ne_of_ne h)]

theorem hasBit_markPair {masks : List UInt64} {n : Nat} (hl : masks.length = n) (hn : n ≤ 64) (hne : u ≠ v)
    (hu : u < n) (hv : v < n) (ha : a < n) :
    hasBit ((markPair masks u v).getD a 0) b = (decide (s(a, b) = s(u, v)) || hasBit (masks.getD a 0) b) := by
  subst hl
  have hb (i) (hi : i < masks.length) : hasBit (single i) b = decide (b = i) := hasBit_single (by omega) b
  simp only [markPair, List.getD_eq_getElem?_getD, List.getElem?_modify, ha, getElem?_pos, Sym2.eq_iff]
  by_cases h₁ : u = a
  case pos =>
    subst h₁
    have h₂ : v ≠ u := hne.symm
    simp [h₂, hb v hv, Bool.or_comm]
    grind
  by_cases h₂ : v = a
  case pos => subst h₂; simp [h₁, hb u hu, Bool.or_comm]; grind
  case neg => simp [h₁, h₂]; grind

theorem neighborMasks_writes (hn : m.n ≤ 64) (ha : a < m.n) :
    Loop.Writes (fun masks (p : Nat × Nat) => if m.edge p.1 p.2 then markPair masks p.1 p.2 else masks)
      (·.length = m.n) (fun masks => hasBit (masks.getD a 0) b)
      (fun p => m.edge p.1 p.2 ∧ s(a, b) = s(p.1, p.2)) true (pairs m.n) where
  inv masks p _ h := by split <;> simp [markPair, h]
  hit masks p hp h he := by
    have := mem_pairs.mp hp
    rw [if_pos he.1, hasBit_markPair h hn (by omega) (by omega) (by omega) ha]
    simp [he.2]
  miss masks p hp h he := by
    have := mem_pairs.mp hp
    split
    case isFalse => rfl
    case isTrue hm =>
      rw [hasBit_markPair h hn (by omega) (by omega) (by omega) ha, decide_eq_false (he ⟨hm, ·⟩)]
      rfl

theorem length_neighborMasks : m.neighborMasks.length = m.n := by
  refine Loop.foldl_induction (fun masks : List UInt64 => masks.length = m.n) (fun masks p _ h => ?_) (by simp)
  split <;> simp [markPair, h]

theorem hasBit_neighborMasks (hn : m.n ≤ 64) : hasBit (m.neighborMasks.getD a 0) b ↔ m.natGraph.Adj a b := by
  rw [natGraph_adj]
  by_cases ha : a < m.n
  case neg => simp [List.getD_eq_getElem?_getD, length_neighborMasks, ha]
  have hw := neighborMasks_writes (b := b) hn ha
  by_cases he : b < m.n ∧ m.edge a b
  case pos =>
    have hne := edge_ne he.2
    refine iff_of_true (hw.foldl_hit (by simp) (.inr ⟨(min a b, max a b), mem_pairs.mpr (by omega), ?_, ?_⟩))
      ⟨ha, he⟩
    · rcases Nat.le_total a b with hab | hab <;> simpa [hab, edge_comm] using he.2
    · rcases Nat.le_total a b with hab | hab <;> simp [hab, Sym2.eq_swap]
  case neg =>
    have : hasBit (m.neighborMasks.getD a 0) b = hasBit ((List.replicate m.n 0).getD a 0) b := by
      refine hw.foldl_miss (by simp) ?_
      rintro ⟨i, j⟩ hp ⟨hij, hs⟩
      have := mem_pairs.mp hp
      refine he ?_
      rcases Sym2.eq_iff.mp hs with ⟨rfl, rfl⟩ | ⟨rfl, rfl⟩
      · exact ⟨this.2, hij⟩
      · exact ⟨by omega, by rwa [edge_comm]⟩
    rw [this]
    simp [List.getD_eq_getElem?_getD, ha, he]

end Masks
end AdjacencyMatrix
