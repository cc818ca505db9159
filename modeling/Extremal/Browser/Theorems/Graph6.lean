import Extremal.Browser.Graph6
import Extremal.Graph.Theorems.RoundTrip

open AdjacencyMatrix Graph6

namespace Browser

namespace BoolMatrix

variable {matrix : BoolMatrix} {n i j a b : Nat} {x : Bool}

structure Square (matrix : BoolMatrix) (n : Nat) : Prop where
  rows    : matrix.length = n
  columns : ∀ row ∈ matrix, row.length = n

def Symmetric (matrix : BoolMatrix) : Prop :=
  ∀ i j, matrix.entry i j = matrix.entry j i

theorem square_replicate (n : Nat) (x : Bool) : Square (List.replicate n (List.replicate n x)) n where
  rows        := List.length_replicate
  columns _ h := List.eq_of_mem_replicate h ▸ List.length_replicate

theorem entry_replicate (n : Nat) : entry (List.replicate n (List.replicate n false)) a b = false := by
  by_cases ha : a < n
  case neg => simp [entry, List.getD_eq_getElem?_getD, ha]
  by_cases hb : b < n <;> simp [entry, List.getD_eq_getElem?_getD, ha, hb]

theorem Square.entry_eq_false (h : matrix.Square n) (hab : ¬(a < n ∧ b < n)) : matrix.entry a b = false := by
  by_cases ha : a < matrix.length
  case neg => simp [entry, List.getD_eq_getElem?_getD, ha]
  have hrow := h.columns _ (List.getElem_mem ha)
  have hb : ¬b < (matrix[a]).length := fun hb => hab ⟨h.rows ▸ ha, hrow ▸ hb⟩
  simp [entry, List.getD_eq_getElem?_getD, ha, hb]

theorem Square.symmetric (h : matrix.Square n) (hs : ∀ i < n, ∀ j < n, matrix.entry i j = matrix.entry j i) :
    matrix.Symmetric := by
  intro i j
  by_cases hij : i < n ∧ j < n
  case pos => exact hs i hij.1 j hij.2
  case neg => rw [h.entry_eq_false hij, h.entry_eq_false fun h => hij h.symm]

theorem Square.setEntry (h : matrix.Square n) : (matrix.setEntry i j x).Square n where
  rows := by simp [BoolMatrix.setEntry, h.rows]
  columns row hr := by
    obtain ⟨k, hk, rfl⟩ := List.mem_iff_getElem.mp hr
    simp only [BoolMatrix.setEntry, List.length_modify] at hk
    have := h.columns _ (List.getElem_mem hk)
    simp only [BoolMatrix.setEntry, List.getElem_modify]
    split <;> simpa

theorem Square.entry_setEntry (h : matrix.Square n) (hi : i < n) (hj : j < n) :
    (matrix.setEntry i j x).entry a b = if a = i ∧ b = j then x else matrix.entry a b := by
  have hi := h.rows ▸ hi
  have hrow := h.columns _ (List.getElem_mem hi)
  simp only [entry, BoolMatrix.setEntry, List.getD_eq_getElem?_getD, List.getElem?_modify]
  by_cases ha : i = a
  case neg => simp [ha, Ne.symm ha]
  case pos =>
    subst ha
    by_cases hb : j = b
    case neg => simp [hi, hb, Ne.symm hb]
    case pos => subst hb; simp [hi, hrow, hj]

end BoolMatrix

open BoolMatrix

section Decode

variable {bytes : List UInt8} {m : AdjacencyMatrix} {bits : List Bool} {n a b : Nat}

theorem charCodes_ofBytes : {bytes : List UInt8} → (∀ b ∈ bytes, 63 ≤ b ∧ b ≤ 126) →
    (JsString.ofBytes bytes).charCodes = bytes.map (·.toUInt16)
  | [], _ | [_], _ => rfl
  | b :: b' :: rest, h => by
    have ⟨hb, hr⟩ := List.forall_mem_cons.mp h
    have hs : JsString.isHighSurrogate b.toUInt16 = false := by
      have := UInt8.le_iff_toNat_le.mp hb.2
      have : ¬0xD800 ≤ b.toUInt16 := by
        simp only [UInt16.le_iff_toNat_le, UInt8.toNat_toUInt16, UInt16.reduceToNat]
        simp only [UInt8.reduceToNat] at this
        omega
      simp [JsString.isHighSurrogate, this]
    have := charCodes_ofBytes hr
    simp only [JsString.ofBytes, List.map_cons, JsString.charCodes, hs, Bool.false_and, Bool.false_eq_true, if_false] at this ⊢
    rw [this]

theorem unpackCode_eq (b : UInt8) (h : 63 ≤ b ∧ b ≤ 126) : unpackCode b.toUInt16 = unpackByte (b - 63) := by
  obtain ⟨⟨b⟩⟩ := b
  revert b
  decide +kernel

theorem placeBit_eq (bits : List Bool) (matrix : BoolMatrix) (p : (Nat × Nat) × Nat) : placeBit bits matrix p =
    if bits.getD p.2 false then matrix.setEntry p.1.1 p.1.2 true |>.setEntry p.1.2 p.1.1 true else matrix := by
  rw [placeBit]
  by_cases hp : p.2 < bits.length
  case pos => simp [hp]
  case neg => simp [hp, List.getD_eq_getElem?_getD]

-- The loop writes the entries of the pairs whose bit is set.
theorem placeBit_writes (bits : List Bool) (n a b : Nat) :
    Loop.Writes (placeBit bits) (·.Square n) (·.entry a b)
      (fun p => bits.getD p.2 false ∧ s(a, b) = s(p.1.1, p.1.2)) true (columnPairs n).zipIdx where
  inv matrix p _ h := by
    rw [placeBit_eq]
    split
    case isTrue  => exact h.setEntry.setEntry
    case isFalse => exact h
  hit matrix p hp h ht := by
    have ⟨hi, hj⟩ := zipIdx_columnPairs_lt hp
    have hi := hi.trans hj
    rw [placeBit_eq, if_pos ht.1, h.setEntry.entry_setEntry hj hi, h.entry_setEntry hi hj]
    rcases Sym2.eq_iff.mp ht.2 with ⟨rfl, rfl⟩ | ⟨rfl, rfl⟩ <;> simp
  miss matrix p hp h ht := by
    have ⟨hi, hj⟩ := zipIdx_columnPairs_lt hp
    have hi := hi.trans hj
    rw [placeBit_eq]
    split
    case isFalse => rfl
    case isTrue hb =>
      have hne : ¬(a = p.1.1 ∧ b = p.1.2 ∨ a = p.1.2 ∧ b = p.1.1) := fun h => ht ⟨hb, Sym2.eq_iff.mpr h⟩
      rw [h.setEntry.entry_setEntry hj hi, h.entry_setEntry hi hj, if_neg fun h => hne (.inr h),
        if_neg fun h => hne (.inl h)]

-- The matrix after the loop.
def placed (bits : List Bool) (n : Nat) : BoolMatrix :=
  (columnPairs n).zipIdx.foldl (placeBit bits) (List.replicate n (List.replicate n false))

theorem square_placed (bits : List Bool) (n : Nat) : (placed bits n).Square n := by
  refine Loop.foldl_induction (fun matrix : BoolMatrix => matrix.Square n) (fun matrix p hp h => ?_)
    (square_replicate n false)
  exact (placeBit_writes bits n 0 0).inv matrix p hp h

-- Both decoders place the same bits.
theorem entry_placed (bits : List Bool) (ha : a < n) (hb : b < n) :
    (placed bits n).entry a b = (fromColumnBits n bits).edge a b := by
  have hw := placeBit_writes bits n a b
  have hw' : Loop.Writes _ _ _ (fun p : (Nat × Nat) × Nat => bits.getD p.2 false ∧ s(a, b) = s(p.1.1, p.1.2)) _ _ :=
    place_writes ha hb
  by_cases ht : ∃ p ∈ (columnPairs n).zipIdx, bits.getD p.2 false ∧ s(a, b) = s(p.1.1, p.1.2)
  case pos =>
    exact (hw.foldl_hit (square_replicate ..) (.inr ht)).trans (hw'.foldl_hit (cleanOn_new _) (.inr ht)).symm
  case neg =>
    have ht := fun p hp hs => ht ⟨p, hp, hs⟩
    exact (hw.foldl_miss (square_replicate ..) ht).trans (entry_replicate n) |>.trans
      (hw'.foldl_miss (cleanOn_new _) ht |>.trans (edge_new _)).symm

theorem toNat_sub_63 {b : UInt8} (h : 63 ≤ b) : (b.toUInt16.toNat : Int) - 63 = (b - 63).toNat := by
  have hs := UInt8.toNat_sub_of_le b 63 h
  have h := UInt8.le_iff_toNat_le.mp h
  simp only [UInt8.reduceToNat] at h hs
  rw [UInt8.toNat_toUInt16, hs]
  omega

theorem decodeGraph6_ofBytes (h : Shaped bytes) (hn : 1 ≤ orderOf bytes) :
    decodeGraph6 (.ofBytes bytes) = placed (bitsOf bytes) (orderOf bytes) := by
  have hb := h.inRange
  cases bytes
  case nil => exact absurd rfl h.nonempty
  case cons first rest =>
    have ⟨hf, hr⟩ := List.forall_mem_cons.mp hb
    change 1 ≤ (first - 63).toNat at hn
    have hbits : (rest.map (·.toUInt16)).flatMap unpackCode = bitsOf (first :: rest) := by
      rw [List.flatMap_map, bitsOf, List.tail_cons]
      exact List.flatMap_congr fun b hb => unpackCode_eq b (hr b hb)
    rw [decodeGraph6, charCodes_ofBytes hb, List.map_cons]
    simp only [toNat_sub_63 hf.1, hbits]
    rw [if_neg (by omega)]
    rfl

theorem graph6VertexCount_ofBytes (h : Shaped bytes) : graph6VertexCount (.ofBytes bytes) = some (orderOf bytes) := by
  have hb := h.inRange
  cases bytes
  case nil => exact absurd rfl h.nonempty
  case cons first rest =>
    have ⟨hl, hu⟩ := hb first (.head _)
    have hn := toNat_sub_63 hl
    have hl' := UInt8.le_iff_toNat_le.mp hl
    have hu' := UInt8.le_iff_toNat_le.mp hu
    simp only [UInt8.reduceToNat] at hl' hu'
    have hr : ¬(first.toUInt16 < 63 ∨ first.toUInt16 > 126) := by
      simp only [GT.gt, UInt16.lt_iff_toNat_lt, UInt8.toNat_toUInt16, UInt16.reduceToNat]
      omega
    show (if first.toUInt16 < 63 ∨ first.toUInt16 > 126 then none else some (first.toUInt16.toNat - 63)) =
      some (first - 63).toNat
    rw [if_neg hr]
    simp only [UInt8.toNat_toUInt16] at hn ⊢
    congr 1
    omega

end Decode

section Encode

theorem packBits_shift (a b c d e f : Bool) (rest : List Bool) (i : Nat) :
    packBits (a :: b :: c :: d :: e :: f :: rest) (i + 6) = packBits rest i := by
  have (k : Nat) : i + 6 + k = i + k + 1 + 1 + 1 + 1 + 1 + 1 := by omega
  simp only [packBits, this, List.getD_cons_succ]

theorem packBits_zero (a b c d e f : Bool) (rest : List Bool) :
    UInt16.ofNat (packBits (a :: b :: c :: d :: e :: f :: rest) 0 + 63) =
      (packChunk [a, b, c, d, e, f] + 63).toUInt16 := by
  have : packBits (a :: b :: c :: d :: e :: f :: rest) 0 = packBits [a, b, c, d, e, f] 0 := rfl
  rw [this]
  clear this rest
  revert a b c d e f
  decide

-- Both encoders write the same characters.
theorem groups_eq {bits : List Bool} (h : 6 ∣ bits.length) :
    (List.range' 0 ((bits.length + 5) / 6) 6).map (fun i => UInt16.ofNat (packBits bits i + 63)) =
      ((chunks bits).map (packChunk · + 63)).map (·.toUInt16) := by
  refine chunks_induction (P := fun bits => (List.range' 0 ((bits.length + 5) / 6) 6).map
    (fun i => UInt16.ofNat (packBits bits i + 63)) = ((chunks bits).map (packChunk · + 63)).map (·.toUInt16)) rfl ?_ bits h
  intro a b c d e f rest hi
  have hl : ((a :: b :: c :: d :: e :: f :: rest).length + 5) / 6 = (rest.length + 5) / 6 + 1 := by
    simp only [List.length_cons]; omega
  rw [hl, List.range'_succ, List.map_cons, packBits_zero, chunks, List.map_cons, List.map_cons, ← hi]
  congr 1
  rw [Nat.add_comm 0 6, ← List.map_add_range', List.map_map]
  refine List.map_congr_left fun i _ => ?_
  rw [Function.comp_apply, Nat.add_comm 6 i, packBits_shift]

-- The matrix shows the graph. The encoders do not read the diagonal.
structure Shows (matrix : BoolMatrix) (m : AdjacencyMatrix) : Prop where
  n    : m.n = matrix.length
  edge : ∀ i j, i < m.n → j < m.n → i ≠ j → m.edge i j = matrix.entry i j

theorem encodeGraph6_eq {matrix : BoolMatrix} {m : AdjacencyMatrix} (h : Shows matrix m) (hpos : 1 ≤ m.n) (hn : m.n ≤ 62) :
    encodeGraph6 matrix = .ofBytes (encode m) := by
  have hbits : (columnPairs m.n).map (fun p => matrix.entry p.1 p.2) = (columnPairs m.n).map fun p => m.edge p.1 p.2 := by
    refine List.map_congr_left fun p hp => ?_
    have ⟨hi, hj⟩ := mem_columnPairs.mp hp
    exact (h.edge _ _ (hi.trans hj) hj hi.ne).symm
  have hfirst : UInt16.ofNat (m.n + 63) = (UInt8.ofNat m.n + 63).toUInt16 := by
    refine UInt16.toNat_inj.mp ?_
    rw [UInt8.toNat_toUInt16, UInt8.toNat_add]
    simp only [UInt16.toNat_ofNat', UInt8.toNat_ofNat', UInt8.reduceToNat]
    omega
  rw [encodeGraph6, ← h.n, if_neg (by omega), hbits, hfirst]
  exact congrArg _ <| groups_eq <| dvd_length_pad _

-- Every symmetric matrix shows a graph that the public functions build.
theorem exists_shown {matrix : BoolMatrix} (hs : matrix.Symmetric) :
    ∃ m : AdjacencyMatrix, m.Built ∧ Shows matrix m := by
  let draw (m : AdjacencyMatrix) (p : Nat × Nat) := m.setEdge p.1 p.2 (matrix.entry p.1 p.2)
  have hb : ((pairs matrix.length).foldl draw (.new matrix.length)).Built ∧
      ((pairs matrix.length).foldl draw (.new matrix.length)).n = matrix.length := by
    refine Loop.foldl_induction (fun m : AdjacencyMatrix => m.Built ∧ m.n = matrix.length) (fun m p hp ⟨hm, hn⟩ => ?_)
      ⟨.new _, rfl⟩
    have := mem_pairs.mp hp
    exact ⟨hm.setEdge (by omega) (by omega) _, n_setEdge.trans hn⟩
  refine ⟨_, hb.1, hb.2, fun i j hi hj hne => ?_⟩
  rw [hb.2] at hi hj
  have hw : Loop.Writes draw (CleanOn matrix.length) (edge · i j) (fun p => true ∧ s(i, j) = s(p.1, p.2))
      (matrix.entry i j) (pairs matrix.length) := by
    refine setEdge_writes (fun _ => true) (fun p => matrix.entry p.1 p.2) id ?_ hi hj ?_
    · intro p hp _
      have := mem_pairs.mp hp
      simp only [id]
      omega
    · intro p _ _ h
      rcases Sym2.eq_iff.mp h with ⟨rfl, rfl⟩ | ⟨rfl, rfl⟩
      · rfl
      · exact hs ..
  refine hw.foldl_hit (cleanOn_new _) (.inr ⟨(min i j, max i j), mem_pairs.mpr (by omega), rfl, ?_⟩)
  exact Sym2.eq_iff.mpr (by omega)

end Encode

-- The browser decodes a string to the matrix of the graph that the server reads, and encodes a matrix
-- to the string that the server writes.
theorem agrees_with_server :
    (∀ bytes m, Graph6.decode? bytes = some (.ok m) → 1 ≤ m.n →
      let matrix := decodeGraph6 (.ofBytes bytes)
      matrix.Square m.n ∧ matrix.Symmetric ∧ (∀ i, matrix.entry i i = false) ∧
      (∀ i j, i < m.n → j < m.n → matrix.entry i j = m.edge i j) ∧
      graph6VertexCount (.ofBytes bytes) = some m.n) ∧
    ∀ matrix : BoolMatrix, matrix.Square matrix.length → matrix.Symmetric →
      1 ≤ matrix.length → matrix.length ≤ 62 →
      (∃ m : AdjacencyMatrix, m.Built ∧ Shows matrix m) ∧
      ∀ m, Shows matrix m → ∃ bytes, Graph6.encode? m = some bytes ∧ encodeGraph6 matrix = .ofBytes bytes := by
  constructor
  case left =>
    intro bytes m hd hpos matrix
    rw [decode?_eq, Option.some.injEq] at hd
    have h := shaped_of_decode hd
    have hm := (decode_shaped h).symm.trans hd
    cases hm
    have hn : (fromColumnBits (orderOf bytes) (bitsOf bytes)).n = orderOf bytes := (cleanOn_fromColumnBits ..).1
    rw [hn] at hpos ⊢
    have hp : matrix = placed (bitsOf bytes) (orderOf bytes) := decodeGraph6_ofBytes h hpos
    have hq : matrix.Square (orderOf bytes) := hp ▸ square_placed ..
    have he {i j} (hi : i < orderOf bytes) (hj : j < orderOf bytes) :
        matrix.entry i j = (fromColumnBits (orderOf bytes) (bitsOf bytes)).edge i j :=
      hp ▸ entry_placed _ hi hj
    refine ⟨hq, hq.symmetric fun i hi j hj => ?_, fun i => ?_, fun i j => he, graph6VertexCount_ofBytes h⟩
    · rw [he hi hj, he hj hi, edge_comm]
    · by_cases hi : i < orderOf bytes
      case pos => rw [he hi hi, edge_self]
      case neg => exact hq.entry_eq_false fun h => hi h.1
  case right =>
    intro matrix _ hs hpos hn
    refine ⟨exists_shown hs, fun m h => ⟨encode m, ?_, ?_⟩⟩
    · exact encode?_eq (h.n.trans_le hn)
    · exact encodeGraph6_eq h (h.n ▸ hpos) (h.n.trans_le hn)

-- One edge on three vertices.
theorem agrees_with_server_edge :
    (decodeGraph6 (.ofBytes [66, 95])).entry 0 1 = true ∧ graph6VertexCount (.ofBytes [66, 95]) = some 3 ∧
    ∃ bytes, Graph6.encode? ((new 3).setEdge 0 1 true) = some bytes ∧
      encodeGraph6 [[false, true, false], [true, false, false], [false, false, false]] = .ofBytes bytes := by
  have ⟨hd, he⟩ := agrees_with_server
  have ⟨_, _, _, hentry, hcount⟩ := hd [66, 95] ((new 3).setEdge 0 1 true) (by decide +kernel) (by decide)
  have hq : Square [[false, true, false], [true, false, false], [false, false, false]] 3 := ⟨rfl, by decide⟩
  have ⟨_, hm⟩ := he _ hq (hq.symmetric <| by decide) (by decide) (by decide)
  have hs : ∀ i < 3, ∀ j < 3, i ≠ j → ((new 3).setEdge 0 1 true).edge i j =
      entry [[false, true, false], [true, false, false], [false, false, false]] i j := by decide
  exact ⟨(hentry 0 1 (by decide) (by decide)).trans (by decide), hcount, hm _ ⟨rfl, fun i j hi hj => hs i hi j hj⟩⟩

end Browser
