import Extremal.Graph.Graph6
import Extremal.Graph.Theorems.Adjacency

namespace AdjacencyMatrix

-- The matrices store the same graph (they may differ in their padding bits).
structure SameEdges (m₁ m₂ : AdjacencyMatrix) : Prop where
  n    : m₁.n = m₂.n
  edge : ∀ i j, i < m₁.n → j < m₁.n → m₁.edge i j = m₂.edge i j

namespace SameEdges

variable {m₁ m₂ : AdjacencyMatrix} (h : m₁.SameEdges m₂)

include h

theorem edge_of_mem {p : Nat × Nat} (hp : p ∈ pairs m₁.n) : m₁.edge p.1 p.2 = m₂.edge p.1 p.2 := by
  have := mem_pairs.mp hp
  exact h.edge p.1 p.2 (by omega) (by omega)

theorem complement_eq : m₁.complement = m₂.complement := by
  rw [complement, complement, ← h.n]
  exact List.foldl_ext _ _ _ fun comp p hp => by rw [h.edge_of_mem hp]

theorem permuteVertices_eq (perm : List Nat) : m₁.permuteVertices perm = m₂.permuteVertices perm := by
  rw [permuteVertices, permuteVertices, ← h.n]
  exact List.foldl_ext _ _ _ fun result p hp => by simp only [h.edge_of_mem hp]

theorem neighborMasks_eq : m₁.neighborMasks = m₂.neighborMasks := by
  rw [neighborMasks, neighborMasks, ← h.n]
  exact List.foldl_ext _ _ _ fun masks p hp => by simp only [h.edge_of_mem hp]

end SameEdges

theorem complement_complement (m : AdjacencyMatrix) : m.complement.complement.SameEdges m where
  n              := by simp
  edge i j hi hj := by
    simp only [n_complement] at hi hj
    by_cases h : i = j
    case pos => simp [h]
    case neg => rw [edge_complement (by simpa) (by simpa) h, edge_complement hi hj h, Bool.not_not]

end AdjacencyMatrix

namespace Graph6

open AdjacencyMatrix

theorem mem_columnPairs {n i j : Nat} : (i, j) ∈ columnPairs n ↔ i < j ∧ j < n := by
  simp only [columnPairs, List.mem_flatMap, List.mem_range, List.mem_map, List.mem_range'_1, Prod.mk.injEq]
  constructor
  case mp  => rintro ⟨_, _, _, _, rfl, rfl⟩; omega
  case mpr => exact fun h => ⟨j, by omega, i, by omega, rfl, rfl⟩

theorem length_columnPairs (n : Nat) : (columnPairs n).length = totalBits n := by
  rw [totalBits_eq]
  induction n
  case zero => rfl
  case succ n ih =>
    cases n
    case zero => rfl
    case succ n =>
      have h : (n + 1 + 1) * (n + 1) = (n + 1) * n + (n + 1) * 2 := by ring
      simp only [columnPairs, Nat.add_sub_cancel] at ih ⊢
      rw [List.range'_concat, List.flatMap_append, List.length_append, ih, h, Nat.add_mul_div_right _ _ (by decide)]
      simp
      omega

theorem nodup_columnPairs (n : Nat) : (columnPairs n).Nodup := by
  rw [columnPairs, List.nodup_flatMap]
  refine ⟨fun j _ => List.nodup_range.map fun _ _ h => (Prod.mk.inj h).1, ?_⟩
  refine (List.nodup_range' ..).imp fun hne => List.disjoint_left.mpr fun p hp hp' => hne ?_
  have ⟨_, _, h⟩ := List.mem_map.mp hp
  have ⟨_, _, h'⟩ := List.mem_map.mp hp'
  exact (Prod.mk.inj <| h.trans h'.symm).2

theorem length_pad (bits : List Bool) : (pad bits).length = (bits.length + 5) / 6 * 6 := by
  simp [pad]
  omega

theorem length_chunks : (bits : List Bool) → (chunks bits).length = (bits.length + 5) / 6
  | a :: b :: c :: d :: e :: f :: rest => by
    simp [chunks, length_chunks rest]
    omega
  | [] | [_] | [_, _] | [_, _, _] | [_, _, _, _] | [_, _, _, _, _] => by simp [chunks]

-- One byte holds six bits and can be told from the others. There are 64 cases to check.
theorem unpackByte_packChunk (a b c d e f : Bool) :
    let byte := packChunk [a, b, c, d, e, f] + 63
    ¬(byte < 63 || 126 < byte) ∧ unpackByte (byte - 63) = [a, b, c, d, e, f] := by
  revert a b c d e f
  decide

-- Induction over a list whose length is a multiple of six.
theorem chunks_induction {P : List Bool → Prop} (nil : P [])
    (step : ∀ a b c d e f rest, P rest → P (a :: b :: c :: d :: e :: f :: rest)) :
    (bits : List Bool) → 6 ∣ bits.length → P bits
  | a :: b :: c :: d :: e :: f :: rest, h =>
    step a b c d e f rest <| chunks_induction nil step rest (by simp at h; omega)
  | [], _ => nil
  | [_], h | [_, _], h | [_, _, _], h | [_, _, _, _], h | [_, _, _, _, _], h => by simp at h

theorem unpack_chunks {bits : List Bool} (h : 6 ∣ bits.length) :
    ((chunks bits).map (packChunk · + 63)).flatMap (fun b => unpackByte (b - 63)) = bits := by
  refine chunks_induction (P := fun bits => (List.map _ (chunks bits)).flatMap _ = bits) rfl ?_ bits h
  intro a b c d e f rest ih
  simp only [chunks, List.map_cons, List.flatMap_cons, (unpackByte_packChunk a b c d e f).2, ih]
  rfl

theorem valid_chunks {bits : List Bool} (h : 6 ∣ bits.length) :
    ∀ b ∈ (chunks bits).map (packChunk · + 63), ¬(b < 63 || 126 < b) := by
  refine chunks_induction (P := fun bits => ∀ b ∈ (chunks bits).map (packChunk · + 63),
    ¬((b < 63 || 126 < b : Bool) = true)) (by simp [chunks]) ?_ bits h
  intro a b c d e f rest ih
  simp only [chunks, List.map_cons, List.forall_mem_cons]
  exact ⟨(unpackByte_packChunk a b c d e f).1, ih⟩

theorem valid_order {n : Nat} (h : n ≤ 62) :
    let byte := UInt8.ofNat n + 63
    ¬(byte < 63 || 126 < byte) ∧ byte ≠ 126 ∧ (byte - 63).toNat = n := by
  revert n
  decide

section Place

variable {m : AdjacencyMatrix} {bits : List Bool} {n a b : Nat} {p : (Nat × Nat) × Nat}

theorem zipIdx_columnPairs_lt (hp : p ∈ (columnPairs n).zipIdx) : p.1.1 < p.1.2 ∧ p.1.2 < n :=
  mem_columnPairs.mp <| List.fst_mem_of_mem_zipIdx hp

-- The decoder's loop, seen through one pair.
theorem place_writes (ha : a < n) (hb : b < n) :
    Loop.Writes (fun r (p : (Nat × Nat) × Nat) => if bits.getD p.2 false then r.setEdge p.1.1 p.1.2 true else r)
      (CleanOn n) (edge · a b) (fun p => bits.getD p.2 false ∧ s(a, b) = s(p.1.1, p.1.2)) true
      (columnPairs n).zipIdx := by
  refine setEdge_writes (fun p : (Nat × Nat) × Nat => bits.getD p.2 false) (fun _ => true) (fun p => p.1) ?_ ha hb
    (fun _ _ _ _ => rfl)
  intro p hp _
  have := zipIdx_columnPairs_lt hp
  omega

theorem cleanOn_fromColumnBits (n : Nat) (bits : List Bool) : CleanOn n (fromColumnBits n bits) := by
  refine Loop.foldl_induction (CleanOn n) (fun r p hp hr => ?_) (cleanOn_new n)
  have := zipIdx_columnPairs_lt hp
  split
  case isTrue  => exact hr.setEdge (by omega) (by omega)
  case isFalse => exact hr

-- The decoder's matrix has the edges that the bits tell.
theorem edge_place (hp : p ∈ (columnPairs n).zipIdx) :
    (fromColumnBits n bits).edge p.1.1 p.1.2 = bits.getD p.2 false := by
  have ⟨hi, hj⟩ := zipIdx_columnPairs_lt hp
  have hw : Loop.Writes _ _ _ (fun q : (Nat × Nat) × Nat => bits.getD q.2 false ∧ _) _ _ :=
    place_writes (hi.trans hj) hj
  cases hb : bits.getD p.2 false
  case true => exact hw.foldl_hit (cleanOn_new _) (.inr ⟨p, hp, hb, rfl⟩)
  case false =>
    refine (hw.foldl_miss (cleanOn_new _) ?_).trans (edge_new _)
    intro q hq ⟨hb', hs⟩
    have ⟨hi', hj'⟩ := zipIdx_columnPairs_lt hq
    have hpq : p.1 = q.1 := by
      rcases Sym2.eq_iff.mp hs with ⟨h₁, h₂⟩ | ⟨h₁, h₂⟩
      case inl => exact Prod.ext h₁ h₂
      case inr => omega
    have hp := List.mem_zipIdx_iff_getElem?.mp hp
    have hq := List.mem_zipIdx_iff_getElem?.mp hq
    have hk : p.2 = q.2 :=
      (List.getElem?_inj (List.getElem?_eq_some_iff.mp hp).1 (nodup_columnPairs n)).mp <| by rw [hp, hq, hpq]
    rw [hk, hb'] at hb
    cases hb

-- The bit list of `encode` holds the edges in column order.
theorem getD_bits (hp : p ∈ (columnPairs m.n).zipIdx) :
    (pad ((columnPairs m.n).map fun p => m.edge p.1 p.2)).getD p.2 false = m.edge p.1.1 p.1.2 := by
  have := List.mem_zipIdx_iff_getElem?.mp hp
  have hl := (List.getElem?_eq_some_iff.mp this).1
  rw [pad, List.getD_append _ _ _ _ (by simpa), List.getD_eq_getElem?_getD]
  simp [this]

theorem edge_fromColumnBits (ha : a < m.n) (hb : b < m.n) :
    (fromColumnBits m.n <| pad <| (columnPairs m.n).map fun p => m.edge p.1 p.2).edge a b = m.edge a b := by
  let bits := pad <| (columnPairs m.n).map fun p => m.edge p.1 p.2
  have hm {i j} (h : i < j ∧ j < m.n) : (fromColumnBits m.n bits).edge i j = m.edge i j := by
    have ⟨k, hk⟩ := List.mem_iff_getElem?.mp <| mem_columnPairs.mpr h
    have hp : ((i, j), k) ∈ (columnPairs m.n).zipIdx := List.mem_zipIdx_iff_getElem?.mpr hk
    exact (edge_place hp).trans <| getD_bits hp
  rcases lt_trichotomy a b with h | h | h
  case inl     => exact hm ⟨h, hb⟩
  case inr.inl => rw [h, edge_self, edge_self]
  case inr.inr => rw [edge_comm, edge_comm m]; exact hm ⟨h, ha⟩

end Place

theorem encode_congr {m₁ m₂ : AdjacencyMatrix} (h : m₁.SameEdges m₂) : encode m₁ = encode m₂ := by
  rw [encode, encode, ← h.n]
  refine congrArg (fun bits => (UInt8.ofNat m₁.n + 63) :: (chunks (pad bits)).map (packChunk · + 63)) ?_
  refine List.map_congr_left fun p hp => ?_
  have ⟨hi, hj⟩ := mem_columnPairs.mp hp
  exact h.edge p.1 p.2 (hi.trans hj) hj

-- Decoding an encoded graph yields the same graph.
theorem decode_encode {m : AdjacencyMatrix} (hn : m.n ≤ 62) :
    ∃ m', decode (encode m) = .ok m' ∧ m'.Clean ∧ m'.SameEdges m := by
  let bits := pad ((columnPairs m.n).map fun p => m.edge p.1 p.2)
  have hl : bits.length = (totalBits m.n + 5) / 6 * 6 := by simp [bits, length_pad, length_columnPairs]
  have h6 : 6 ∣ bits.length := ⟨_, by rw [hl, mul_comm]⟩
  let first := UInt8.ofNat m.n + 63
  let rest := (chunks bits).map (packChunk · + 63)
  have hf : (first :: rest).find? (fun b => b < 63 || 126 < b) = none := by
    rw [List.find?_eq_none, List.forall_mem_cons]
    exact ⟨(valid_order hn).1, valid_chunks h6⟩
  have hg : rest.length = (totalBits m.n + 5) / 6 := by
    rw [List.length_map, length_chunks, hl]
    omega
  have ⟨_, (h126 : first ≠ 126), (hord : (first - 63).toNat = m.n)⟩ := valid_order hn
  refine ⟨fromColumnBits m.n bits, ?_, (cleanOn_fromColumnBits ..).2, (cleanOn_fromColumnBits ..).1, ?_⟩
  case refine_1 =>
    show decode (first :: rest) = _
    simp only [decode, hf, h126, hord, hg, if_false, lt_irrefl, gt_iff_lt, show ¬(62 < m.n) by omega]
    rw [unpack_chunks h6]
  case refine_2 =>
    rw [(cleanOn_fromColumnBits ..).1]
    exact fun i j => edge_fromColumnBits

-- In particular graphs with the same encoding are the same.
theorem encode_inj {m₁ m₂ : AdjacencyMatrix} (h₁ : m₁.n ≤ 62) (h₂ : m₂.n ≤ 62) (h : encode m₁ = encode m₂) :
    m₁.SameEdges m₂ := by
  have ⟨m, hd₁, _, hs₁⟩ := decode_encode h₁
  have ⟨m', hd₂, _, hs₂⟩ := decode_encode h₂
  obtain rfl : m = m' := by simpa [h, hd₂, eq_comm] using hd₁
  refine ⟨hs₁.n.symm.trans hs₂.n, fun i j hi hj => ?_⟩
  rw [← hs₁.n] at hi hj
  rw [← hs₁.edge i j hi hj, hs₂.edge i j hi hj]

end Graph6
