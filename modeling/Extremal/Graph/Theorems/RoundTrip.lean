import Mathlib.Algebra.Order.Floor.Div
import Mathlib.GroupTheory.GroupAction.Ring
import Extremal.Graph.Checked
import Extremal.Graph.Theorems.Graph6

-- Matrices as the public functions build them from vertices of the graph.
inductive AdjacencyMatrix.Built : AdjacencyMatrix → Prop
  | new (n : Nat) : Built (new n)
  | setEdge (h : Built m) (hu : u < m.n) (hv : v < m.n) (value : Bool) : Built (m.setEdge u v value)
  | complement (h : Built m) : Built m.complement
  | permuteVertices (h : Built m) (hl : perm.length = m.n) (hp : ∀ v ∈ perm, v < m.n) : Built (m.permuteVertices perm)
  | decode (h : Graph6.decode bytes = .ok m) : Built m

section Panics

theorem checkedAdd_eq_some {a b : UInt8} (h : a.toNat + b.toNat < 256) : checkedAdd a b = some (a + b) :=
  if_pos h

theorem checkedSub_eq_some {a b : UInt8} (h : b ≤ a) : checkedSub a b = some (a - b) :=
  if_pos h

namespace AdjacencyMatrix

variable {m : AdjacencyMatrix} {u v : Nat}

theorem bitIndex?_eq {n i j : Nat} (hi : i < j) (hj : j < n) : bitIndex? n i j = some (bitIndex n i j) := by
  refine if_pos ⟨hi, ?_⟩
  have : i * (i + 1) ≤ i * n := Nat.mul_le_mul_left i (by omega)
  omega

theorem edge?_eq (hu : u < m.n) (hv : v < m.n) : m.edge? u v = some (m.edge u v) := by
  rw [edge?, edge]
  split
  case isTrue  => rfl
  case isFalse h =>
    have hl := lt_length_bits (m := m) (a := min u v) (b := max u v) (by omega) (by omega)
    have hb : bitIndex m.n (min u v) (max u v) / 8 < m.bits.length := by omega
    rw [bitIndex?_eq (by omega) (by omega), PackedBits.get, List.getD_eq_getElem _ _ hb]
    simp [hb]

theorem setEdge?_eq (hu : u < m.n) (hv : v < m.n) (x : Bool) : m.setEdge? u v x = some (m.setEdge u v x) := by
  rw [setEdge?]
  split
  case isTrue h  => rw [setEdge_self h]
  case isFalse h =>
    have hl := lt_length_bits (m := m) (a := min u v) (b := max u v) (by omega) (by omega)
    rw [bitIndex?_eq (by omega) (by omega)]
    simp only [Option.bind_eq_bind, Option.bind_some]
    exact if_pos (by omega)

end AdjacencyMatrix

namespace Graph6

open AdjacencyMatrix

-- There are 64 groups of six bits to check.
theorem packChunk_lt {bits : List Bool} (h : 6 ∣ bits.length) : ∀ chunk ∈ chunks bits, (packChunk chunk).toNat < 64 := by
  refine chunks_induction (P := fun bits => ∀ chunk ∈ chunks bits, (packChunk chunk).toNat < 64) (by simp [chunks]) ?_
    bits h
  intro a b c d e f rest ih
  rw [chunks, List.forall_mem_cons]
  refine ⟨?_, ih⟩
  revert a b c d e f
  decide

theorem dvd_length_pad (bits : List Bool) : 6 ∣ (pad bits).length :=
  ⟨_, by rw [length_pad, mul_comm]⟩

theorem valid_encode {m : AdjacencyMatrix} (hn : m.n ≤ 62) : ∀ b ∈ encode m, 63 ≤ b ∧ b ≤ 126 := by
  have h : ∀ b ∈ encode m, ¬(b < 63 || 126 < b) :=
    List.forall_mem_cons.mpr ⟨(valid_order hn).1, valid_chunks <| dvd_length_pad _⟩
  intro b hb
  simpa using h b hb

theorem encode?_eq {m : AdjacencyMatrix} (hn : m.n ≤ 62) : encode? m = some (encode m) := by
  have hfirst : checkedAdd (UInt8.ofNat m.n) 63 = some (UInt8.ofNat m.n + 63) :=
    checkedAdd_eq_some <| by simp; omega
  have hbits : (columnPairs m.n).mapM (fun p => m.edge? p.1 p.2) =
      some ((columnPairs m.n).map fun p => m.edge p.1 p.2) := by
    refine Loop.mapM_some fun p hp => ?_
    have ⟨hi, hj⟩ := mem_columnPairs.mp hp
    exact edge?_eq (by omega) hj
  have hgroups (bits : List Bool) : (chunks (pad bits)).mapM (fun chunk => checkedAdd (packChunk chunk) 63) =
      some ((chunks (pad bits)).map (packChunk · + 63)) := by
    refine Loop.mapM_some fun chunk hc => checkedAdd_eq_some ?_
    have := packChunk_lt (dvd_length_pad bits) chunk hc
    simp
    omega
  have hascii : (encode m).all (· < 128) := by
    rw [List.all_eq_true]
    intro b hb
    have := (valid_encode hn b hb).2
    simp only [decide_eq_true_eq, UInt8.lt_iff_toNat_lt, UInt8.le_iff_toNat_le] at this ⊢
    exact this.trans_lt (by decide)
  simp only [encode?, guard, hn, if_true, hfirst, hbits, hgroups, Option.bind_eq_bind, Option.bind_some]
  show (if (encode m).all (· < 128) then some () else none).bind _ = _
  rw [if_pos hascii]
  rfl

theorem fromColumnBits?_eq (n : Nat) (bits : List Bool) : fromColumnBits? n bits = some (fromColumnBits n bits) := by
  refine Loop.foldlM_some (CleanOn n) (fun m p hp hm => ?_) (cleanOn_new n)
  have ⟨hi, hj⟩ := zipIdx_columnPairs_lt hp
  have ⟨hn, _⟩ := hm
  split
  case isTrue  => exact ⟨setEdge?_eq (by omega) (by omega) _, hm.setEdge (by omega) (by omega)⟩
  case isFalse => exact ⟨rfl, hm⟩

-- No string makes the decoder panic.
theorem decode?_eq (bytes : List UInt8) : decode? bytes = some (decode bytes) := by
  cases bytes
  case nil => rfl
  case cons first rest =>
    rw [decode?, decode]
    cases hv : (first :: rest).find? fun b => b < 63 || 126 < b
    case some b => rfl
    case none =>
      have hv : ∀ b ∈ first :: rest, 63 ≤ b := by
        intro b hb
        have := List.find?_eq_none.mp hv b hb
        simp only [Bool.or_eq_true, decide_eq_true_eq, not_or, UInt8.not_lt] at this
        exact this.1
      have hfirst := checkedSub_eq_some <| hv first (.head _)
      have hrest : rest.mapM (fun b => (checkedSub b 63).map unpackByte) = some (rest.map fun b => unpackByte (b - 63)) :=
        Loop.mapM_some fun b hb => by rw [checkedSub_eq_some <| hv b (.tail _ hb)]; rfl
      simp only [hfirst, hrest, fromColumnBits?_eq, Option.bind_eq_bind, Option.bind_some, List.flatMap_def]
      split_ifs <;> rfl

end Graph6
end Panics

namespace Graph6

open AdjacencyMatrix

-- The order that the first byte of a string encodes.
def orderOf (bytes : List UInt8) : Nat :=
  (bytes.headD 63 - 63).toNat

-- The bits of the groups behind the first byte.
def bitsOf (bytes : List UInt8) : List Bool :=
  bytes.tail.flatMap fun b => unpackByte (b - 63)

-- The bytes, the order and the length of a string are those of a graph6 string.
structure Shaped (bytes : List UInt8) : Prop where
  inRange     : ∀ b ∈ bytes, 63 ≤ b ∧ b ≤ 126
  nonempty    : bytes ≠ []
  orderOf_le  : orderOf bytes ≤ 62
  length_tail : bytes.tail.length = (totalBits (orderOf bytes) + 5) / 6

-- The bits behind the last edge bit are zero.
def ZeroPadded (bytes : List UInt8) : Prop :=
  ∀ bit ∈ (bitsOf bytes).drop (totalBits (orderOf bytes)), bit = false

section Grammar

variable {bytes : List UInt8} {m : AdjacencyMatrix}

theorem length_bitsOf (bytes : List UInt8) : (bitsOf bytes).length = bytes.tail.length * 6 := by
  rw [bitsOf, List.length_flatMap]
  simp [unpackByte]

theorem find?_invalid : (bytes.find? fun b => b < 63 || 126 < b) = none ↔ ∀ b ∈ bytes, 63 ≤ b ∧ b ≤ 126 := by
  simp [List.find?_eq_none]

theorem decode_shaped (h : Shaped bytes) : decode bytes = .ok (fromColumnBits (orderOf bytes) (bitsOf bytes)) := by
  have ⟨hb, hne, ho, hg⟩ := h
  cases bytes
  case nil => exact absurd rfl hne
  case cons first rest =>
    have h126 : first ≠ 126 := by
      rintro rfl
      exact absurd ho (by simp [orderOf])
    rw [decode, find?_invalid.mpr hb]
    change (first - 63).toNat ≤ 62 at ho
    change rest.length = (totalBits (first - 63).toNat + 5) / 6 at hg
    simp only [if_neg h126, gt_iff_lt, ho.not_gt, hg, lt_irrefl, if_false]
    rfl

theorem shaped_of_decode (e : decode bytes = .ok m) : Shaped bytes := by
  cases bytes
  case nil => cases e
  case cons first rest =>
    rw [decode] at e
    split at e
    case h_1 => cases e
    case h_2 hb =>
      dsimp only at e
      split_ifs at e with _ ho hs hl
      exact ⟨find?_invalid.mp hb, by simp, by simpa [orderOf] using ho, by simp [orderOf]; omega⟩

theorem n_le_of_decode (e : decode bytes = .ok m) : m.n ≤ 62 := by
  have h := shaped_of_decode e
  rw [decode_shaped h] at e
  cases e
  rw [(cleanOn_fromColumnBits ..).1]
  exact h.orderOf_le

-- The decoder rejects exactly the strings of another shape.
theorem decode_error_iff : (∃ e, decode bytes = .error e) ↔ ¬Shaped bytes := by
  constructor
  case mp =>
    intro ⟨_, e⟩ h
    rw [decode_shaped h] at e
    cases e
  case mpr =>
    intro h
    cases e : decode bytes
    case error => exact ⟨_, rfl⟩
    case ok    => exact absurd (shaped_of_decode e) h

end Grammar

section Bits

variable {bits : List Bool} {n : Nat}

theorem columnBits (h : totalBits n ≤ bits.length) :
    (columnPairs n).map (fun p => (fromColumnBits n bits).edge p.1 p.2) = bits.take (totalBits n) := by
  refine List.ext_getElem (by simp [length_columnPairs, h]) (fun k hk hk' => ?_)
  rw [List.length_map] at hk
  have hp : ((columnPairs n)[k], k) ∈ (columnPairs n).zipIdx := List.mem_zipIdx_iff_getElem?.mpr <| by simp [hk]
  rw [List.getElem_map, edge_place hp, List.getElem_take, List.getD_eq_getElem]

-- The padding of the encoder is zero.
theorem pad_take (hl : bits.length = (n + 5) / 6 * 6) (hz : ∀ bit ∈ bits.drop n, bit = false) :
    pad (bits.take n) = bits := by
  have hr : bits.drop n = List.replicate (bits.length - n) false :=
    List.eq_replicate_iff.mpr ⟨List.length_drop, hz⟩
  conv_rhs => rw [← List.take_append_drop n bits, hr]
  rw [pad, List.length_take, hl]
  congr 2
  omega

theorem packChunk_unpackByte (b : UInt8) (h : 63 ≤ b ∧ b ≤ 126) : packChunk (unpackByte (b - 63)) + 63 = b := by
  obtain ⟨⟨b⟩⟩ := b
  revert b
  decide +kernel

theorem chunks_bitsOf : {rest : List UInt8} → (∀ b ∈ rest, 63 ≤ b ∧ b ≤ 126) →
    (chunks (rest.flatMap fun b => unpackByte (b - 63))).map (packChunk · + 63) = rest
  | [], _ => rfl
  | b :: rest, h => by
    have ⟨hb, hr⟩ := List.forall_mem_cons.mp h
    conv_rhs => rw [← packChunk_unpackByte b hb, ← chunks_bitsOf hr]
    rfl

end Bits

section Encode

variable {bytes : List UInt8} {m : AdjacencyMatrix}

theorem orderOf_encode (hn : m.n ≤ 62) : orderOf (encode m) = m.n :=
  (valid_order hn).2.2

theorem bitsOf_encode : bitsOf (encode m) = pad ((columnPairs m.n).map fun p => m.edge p.1 p.2) :=
  unpack_chunks <| dvd_length_pad _

theorem shaped_encode (hn : m.n ≤ 62) : Shaped (encode m) where
  inRange     := valid_encode hn
  nonempty    := by simp [encode]
  orderOf_le  := (orderOf_encode hn).trans_le hn
  length_tail := by
    rw [orderOf_encode hn]
    simp only [encode, List.tail_cons, List.length_map, length_chunks, length_pad, length_columnPairs]
    omega

theorem zeroPadded_encode (hn : m.n ≤ 62) : ZeroPadded (encode m) := by
  rw [ZeroPadded, orderOf_encode hn, bitsOf_encode, pad, List.drop_append_of_le_length (by simp [length_columnPairs]),
    List.drop_of_length_le (by simp [length_columnPairs])]
  exact fun _ => List.eq_of_mem_replicate

-- A string of the right shape is the encoding of its graph, if its padding is zero.
theorem encode_decoded (h : Shaped bytes) (hz : ZeroPadded bytes) :
    encode (fromColumnBits (orderOf bytes) (bitsOf bytes)) = bytes := by
  have ⟨hb, hne, _, hg⟩ := h
  have hl : (bitsOf bytes).length = (totalBits (orderOf bytes) + 5) / 6 * 6 := by rw [length_bitsOf, hg]
  rw [encode, (cleanOn_fromColumnBits ..).1, columnBits (by omega), pad_take hl hz]
  cases bytes
  case nil => exact absurd rfl hne
  case cons first rest =>
    obtain ⟨hf, hr⟩ := List.forall_mem_cons.mp hb
    refine congrArg₂ _ ?_ <| chunks_bitsOf hr
    rw [orderOf, List.headD_cons, UInt8.ofNat_toNat, UInt8.sub_add_cancel]

end Encode
end Graph6

theorem AdjacencyMatrix.Built.clean {m : AdjacencyMatrix} (h : m.Built) : m.Clean := by
  induction h
  case new n                         => exact clean_new n
  case setEdge hu hv value hi        => exact hi.setEdge hu hv
  case complement                    => exact clean_complement
  case permuteVertices m _ hl hp hi  =>
    exact (cleanOn_relabel fun v hv => hp _ <| getD_mem <| hl ▸ hv).2
  case decode h =>
    have h := Graph6.decode_shaped (Graph6.shaped_of_decode h) |>.symm.trans h
    cases h
    exact (Graph6.cleanOn_fromColumnBits ..).2

namespace Graph6

-- The encoder returns the string, which has the right length and only printable bytes and starts with the order.
structure Encodes (m : AdjacencyMatrix) (bytes : List UInt8) : Prop where
  encodes : encode? m = some bytes
  length  : bytes.length = 1 + m.n * (m.n - 1) ⌈/⌉ 12
  inRange : ∀ b ∈ bytes, 63 ≤ b ∧ b ≤ 126
  order   : bytes.head?.map (·.toNat) = some (m.n + 63)

theorem encodes_encode {m : AdjacencyMatrix} (hn : m.n ≤ 62) : Encodes m (encode m) where
  encodes := encode?_eq hn
  length  := by
    have hl := (shaped_encode hn).length_tail
    rw [orderOf_encode hn, AdjacencyMatrix.totalBits_eq] at hl
    have h2 : 2 ∣ m.n * (m.n - 1) := (Nat.even_mul_pred_self m.n).two_dvd
    have ht : (encode m).length = 1 + (encode m).tail.length := Nat.add_comm ..
    rw [ht, hl, Nat.ceilDiv_eq_add_pred_div]
    omega
  inRange := valid_encode hn
  order   := by
    simp only [encode, List.head?_cons, Option.map_some, UInt8.toNat_add, UInt8.toNat_ofNat']
    congr 1
    simp
    omega

-- The string does not keep the bits behind the upper triangle.
theorem decode_encode_iff {m : AdjacencyMatrix} (hn : m.n ≤ 62) : decode (encode m) = .ok m ↔ m.Clean := by
  have ⟨m', hd, hc, hs⟩ := decode_encode hn
  rw [hd, Except.ok.injEq]
  constructor
  case mp =>
    rintro rfl
    exact hc
  case mpr => exact fun h => hc.ext h hs.n fun i j hi hj => hs.edge i j (hi.trans hj) hj

-- The decoder never panics. It accepts a string if and only if it has the right shape, and meets the
-- grammar of the encoder on the strings whose padding is zero.
theorem decode_exact_iff (bytes : List UInt8) :
    (∃ r, decode? bytes = some r) ∧
    (((∀ m, decode? bytes = some (.ok m) → encode? m = some bytes) ∧
      (¬(Shaped bytes ∧ ZeroPadded bytes) → ∃ e, decode? bytes = some (.error e))) ↔
      (Shaped bytes → ZeroPadded bytes)) := by
  refine ⟨⟨_, decode?_eq bytes⟩, ?_⟩
  simp only [decode?_eq, Option.some.injEq]
  constructor
  case mp =>
    intro ⟨he, _⟩ hs
    have hd := decode_shaped hs
    have hn : (fromColumnBits (orderOf bytes) (bitsOf bytes)).n ≤ 62 :=
      (cleanOn_fromColumnBits ..).1.trans_le hs.orderOf_le
    have he := he _ hd
    rw [encode?_eq hn, Option.some.injEq] at he
    exact he ▸ zeroPadded_encode hn
  case mpr =>
    intro hz
    refine ⟨fun m hm => ?_, fun hn => decode_error_iff.mpr fun hs => hn ⟨hs, hz hs⟩⟩
    have hs := shaped_of_decode hm
    have hm := (decode_shaped hs).symm.trans hm
    cases hm
    rw [encode?_eq <| (cleanOn_fromColumnBits ..).1.trans_le hs.orderOf_le, encode_decoded hs (hz hs)]

-- The empty graph on two vertices has a second string, with a bit in the padding.
theorem padding_is_ignored :
    let bytes : List UInt8 := [65, 64]
    decode? bytes = some (.ok (.new 2)) ∧ encode? (.new 2) = some [65, 63] ∧ encode? (.new 2) ≠ some bytes := by
  decide +kernel

end Graph6
