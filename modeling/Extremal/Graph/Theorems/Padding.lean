import Extremal.Graph.Theorems.EdgeFunction

-- The bits behind the upper triangle, over every run of the public functions.

namespace AdjacencyMatrix

-- The public functions that make a matrix, and those that turn one matrix into the next.
inductive Constructor
  | new (n : Nat)
  | fromBits (n : Nat) (bits : List UInt8)
  | decode (bytes : List UInt8)

inductive Operation
  | setEdge (i j : Nat) (value : Bool)
  | complement
  | permuteVertices (perm : List Nat)

-- An error and a panic have no matrix.
def Constructor.make? : Constructor → Option AdjacencyMatrix
  | new n           => some (.new n)
  | fromBits n bits => (AdjacencyMatrix.fromBits n bits).toOption
  | decode bytes    => Graph6.decode? bytes >>= Except.toOption

def Operation.act? (m : AdjacencyMatrix) : Operation → Option AdjacencyMatrix
  | setEdge i j value    => m.setEdge? i j value
  | complement           => m.complement?
  | permuteVertices perm => m.permuteVertices? perm

inductive Run : AdjacencyMatrix → Type
  | make (c : Constructor) (h : c.make? = some m) : Run m
  | step (r : Run m) (op : Operation) (h : op.act? m = some m') : Run m'

def Run.states : Run m → List AdjacencyMatrix
  | @make m _ _       => [m]
  | @step _ m' r _ _  => m' :: r.states

-- A write to this pair is none, or a write to a bit of the upper triangle.
def WritesPair (n i j : Nat) : Prop :=
  i = j ∨ bitIndex n (min i j) (max i j) < totalBits n

-- The arguments set no bit behind the upper triangle.
def Constructor.Tidy : Constructor → Prop
  | fromBits n bits => ∀ k, totalBits n ≤ k → PackedBits.get bits k = false
  | new _ | decode _ => True

def Operation.Tidy (m : AdjacencyMatrix) : Operation → Prop
  | setEdge i j value    => value = true → WritesPair m.n i j
  | complement           => True
  | permuteVertices perm => ∀ p ∈ pairs m.n, m.edge p.1 p.2 → WritesPair m.n (perm.getD p.1 0) (perm.getD p.2 0)

def Run.Tidy : Run m → Prop
  | make c _          => c.Tidy
  | @step m _ r op _  => r.Tidy ∧ op.Tidy m

-- The edge count and `==` see nothing but edges.
structure EdgesOnly (m : AdjacencyMatrix) : Prop where
  numEdges : m.numEdges = (pairs m.n).countP fun p => m.edge p.1 p.2
  eq_iff   : ∀ {m'} (r : Run m'), r.Tidy → (m = m' ↔ m.SameEdges m')

-- The codec maps a matrix to its string and back, and no other matrix to this string.
def RoundTrips (m : AdjacencyMatrix) : Prop :=
  ∃ bytes, Graph6.Encodes m bytes ∧ Graph6.decode? bytes = some (.ok m) ∧
    ∀ {m'} (r : Run m'), r.Tidy → m'.n ≤ 62 → Graph6.encode? m' = some bytes → m' = m

variable {m m' : AdjacencyMatrix} {i j : Nat} {x : Bool} {perm : List Nat}

section Count

theorem numEdges_eq (m : AdjacencyMatrix) :
    m.numEdges = (pairs m.n).countP (fun p => m.edge p.1 p.2) +
      (List.range (8 * m.bits.length - totalBits m.n)).countP (PackedBits.get m.bits <| totalBits m.n + ·) := by
  have hl : totalBits m.n ≤ 8 * m.bits.length := by rw [m.length_bits, totalBits_eq]; omega
  have he : (pairs m.n).countP (fun p => m.edge p.1 p.2) =
      (List.range (totalBits m.n)).countP (PackedBits.get m.bits) := by
    rw [totalBits_eq, ← pairs_map_bitIndex, List.countP_map]
    refine List.countP_congr fun p hp => ?_
    have := mem_pairs.mp hp
    simp [edge, this.1.ne, this.1.le]
  rw [numEdges, PackedBits.sum_countP, he, ← Nat.add_sub_cancel' hl, List.range_add, List.countP_append,
    List.countP_map, Nat.add_sub_cancel_left]
  rfl

theorem numEdges_iff : m.numEdges = ((pairs m.n).countP fun p => m.edge p.1 p.2) ↔ m.Clean := by
  rw [numEdges_eq, Nat.add_eq_left, List.countP_eq_zero, Clean, ← totalBits_eq]
  constructor
  case mp =>
    intro h k hk
    rcases Nat.lt_or_ge k (8 * m.bits.length) with hb | hb
    case inl =>
      have := h (k - totalBits m.n) (List.mem_range.mpr <| by omega)
      rwa [Nat.add_sub_cancel' hk, Bool.not_eq_true] at this
    case inr => exact PackedBits.get_of_le hb
  case mpr => exact fun h k _ => by simp [h (totalBits m.n + k) (by omega)]

theorem Clean.eq_iff (h : m.Clean) (h' : m'.Clean) : m = m' ↔ m.SameEdges m' := by
  constructor
  case mp  => rintro rfl; exact ⟨rfl, fun _ _ _ _ => rfl⟩
  case mpr => exact fun hs => h.ext h' hs.n fun i j hi hj => hs.edge i j (hi.trans hj) hj

end Count

section Steps

theorem get_setEdge_of_lt (hn : i ≠ j) (h : bitIndex m.n (min i j) (max i j) < 8 * m.bits.length) (k : Nat) :
    PackedBits.get (m.setEdge i j x).bits k =
      if bitIndex m.n (min i j) (max i j) = k then x else PackedBits.get m.bits k := by
  simp only [setEdge, hn, if_false]
  exact PackedBits.get_set h x k

-- A call that returns sets the bit that the index points to.
theorem setEdge?_some (h : m.setEdge? i j x = some m') : m' = m.setEdge i j x ∧
    (i ≠ j → bitIndex m.n (min i j) (max i j) < 8 * m.bits.length) := by
  rw [setEdge?] at h
  split at h
  case isTrue he =>
    cases h
    exact ⟨(setEdge_self he).symm, fun hn => absurd he hn⟩
  case isFalse =>
    obtain ⟨idx, hi, h⟩ := Option.bind_eq_some_iff.mp h
    have hi := Option.some.inj (Option.ite_none_right_eq_some.mp hi).2
    obtain ⟨hb, h⟩ := Option.ite_none_right_eq_some.mp h
    exact ⟨Option.some.inj h |>.symm, fun _ => by omega⟩

theorem get_setEdge? (h : m.setEdge? i j x = some m') (k : Nat) : PackedBits.get m'.bits k =
    if i ≠ j ∧ bitIndex m.n (min i j) (max i j) = k then x else PackedBits.get m.bits k := by
  have ⟨he, hb⟩ := setEdge?_some h
  subst he
  by_cases hn : i = j
  case pos => simp [hn, setEdge_self]
  case neg => simp [hn, get_setEdge_of_lt hn (hb hn)]

theorem n_setEdge? (h : m.setEdge? i j x = some m') : m'.n = m.n := by
  rw [(setEdge?_some h).1, n_setEdge]

theorem clean_setEdge? (hc : m.Clean) (h : m.setEdge? i j x = some m') :
    m'.Clean ↔ (x = true → WritesPair m.n i j) := by
  simp only [Clean, WritesPair, get_setEdge? h, n_setEdge? h, ← totalBits_eq] at hc ⊢
  constructor
  case mp =>
    rintro hp rfl
    refine or_iff_not_imp_left.mpr fun hn => Nat.lt_of_not_le fun hb => ?_
    simpa [hn] using hp _ hb
  case mpr =>
    intro hw k hk
    split
    case isFalse => exact hc k hk
    case isTrue h =>
      have ⟨hn, he⟩ := h
      refine Bool.eq_false_iff.mpr fun hx => ?_
      rcases hw hx with he | hb
      · exact hn he
      · omega

theorem getD_of_getElem? {v u : Nat} (h : perm[v]? = some u) : perm.getD v 0 = u := by
  rw [List.getD_eq_getElem?_getD, h, Option.getD_some]

-- An edge of the old graph whose image is stored in the bit `k`.
def StoresAt (m : AdjacencyMatrix) (perm : List Nat) (k : Nat) (p : Nat × Nat) : Prop :=
  m.edge p.1 p.2 ∧ perm.getD p.1 0 ≠ perm.getD p.2 0 ∧
    bitIndex m.n (min (perm.getD p.1 0) (perm.getD p.2 0)) (max (perm.getD p.1 0) (perm.getD p.2 0)) = k

-- The bits that a relabelling sets are those of the images of the edges.
theorem get_permuteVertices? (h : m.permuteVertices? perm = some m') (k : Nat) :
    m'.n = m.n ∧ (PackedBits.get m'.bits k ↔ ∃ p ∈ pairs m.n, m.StoresAt perm k p) := by
  have h := (Option.ite_none_left_eq_some.mp h).2
  have hnew : ¬PackedBits.get (new m.n).bits k := by simp [new, PackedBits.get_replicate_zero]
  rw [← or_iff_right (b := ∃ p ∈ pairs m.n, m.StoresAt perm k p) hnew]
  refine Loop.foldlM_or (·.n = m.n) (fun result => PackedBits.get result.bits k) ?_ rfl h
  rintro result result' ⟨a, b⟩ hp hn hs
  have := mem_pairs.mp hp
  rw [edge?_eq (by omega) this.2, Option.bind_eq_bind, Option.bind_some] at hs
  cases he : m.edge a b
  case false =>
    rw [he] at hs
    cases hs
    simp [hn, StoresAt, he]
  case true =>
    simp only [he, if_true] at hs
    obtain ⟨u, hu, hs⟩ := Option.bind_eq_some_iff.mp hs
    obtain ⟨v, hv, hs⟩ := Option.bind_eq_some_iff.mp hs
    refine ⟨(n_setEdge? hs).trans hn, ?_⟩
    rw [get_setEdge? hs, StoresAt, getD_of_getElem? hu, getD_of_getElem? hv, hn]
    split <;> simp_all

theorem clean_permuteVertices? (h : m.permuteVertices? perm = some m') :
    m'.Clean ↔ (Operation.permuteVertices perm).Tidy m := by
  have hg := get_permuteVertices? h
  simp only [Clean, Operation.Tidy, WritesPair, (hg 0).1, ← totalBits_eq]
  constructor
  case mp =>
    refine fun hc p hp he => or_iff_not_imp_left.mpr fun hne => Nat.lt_of_not_le fun hb => ?_
    exact Bool.eq_false_iff.mp (hc _ hb) <| (hg _).2.mpr ⟨p, hp, he, hne, rfl⟩
  case mpr =>
    refine fun ht k hk => Bool.eq_false_iff.mpr fun hb => ?_
    have ⟨p, hp, he, hne, hi⟩ := (hg k).2.mp hb
    have := (ht p hp he).resolve_left hne
    omega

theorem Constructor.clean_iff {c : Constructor} (h : c.make? = some m) : m.Clean ↔ c.Tidy := by
  cases c
  case new n =>
    cases h
    exact iff_of_true (clean_new n) trivial
  case fromBits n bits =>
    rw [make?, AdjacencyMatrix.fromBits] at h
    split at h
    case isTrue  => cases h
    case isFalse =>
      cases h
      rw [Clean, ← totalBits_eq]
      rfl
  case decode bytes =>
    rw [make?, Graph6.decode?_eq, Option.bind_eq_bind, Option.bind_some] at h
    cases hd : Graph6.decode bytes
    case error => rw [hd] at h; cases h
    case ok    => rw [hd] at h; cases h; exact iff_of_true (Built.decode hd).clean trivial

-- One step keeps the padding clear if and only if its arguments do.
theorem Operation.clean_iff {op : Operation} (hc : m.Clean) (h : op.act? m = some m') : m'.Clean ↔ op.Tidy m := by
  cases op
  case setEdge i j value    => exact clean_setEdge? hc h
  case permuteVertices perm => exact clean_permuteVertices? h
  case complement           =>
    rw [act?, complement?_eq] at h
    cases h
    exact iff_of_true clean_complement trivial

theorem Operation.n_act? {op : Operation} (h : op.act? m = some m') : m'.n = m.n := by
  cases op
  case setEdge          => exact n_setEdge? h
  case permuteVertices  => exact (get_permuteVertices? h 0).1
  case complement       =>
    rw [act?, complement?_eq] at h
    cases h
    exact n_complement

end Steps

namespace Run

theorem mem_states : (r : Run m) → m ∈ r.states
  | make .. | step .. => .head _

theorem clean_iff (r : Run m) : (∀ s ∈ r.states, s.Clean) ↔ r.Tidy := by
  induction r
  case make c h => simp [states, Tidy, Constructor.clean_iff h]
  case step m m' r op h hi =>
    rw [states, List.forall_mem_cons, Tidy, ← hi, and_comm, and_congr_right_iff]
    exact fun hc => Operation.clean_iff (hc _ r.mem_states) h

theorem n_states (r : Run m) : ∀ s ∈ r.states, s.n = m.n := by
  induction r
  case make => simp [states]
  case step m m' r op h hi =>
    rw [states, List.forall_mem_cons]
    exact ⟨rfl, fun s hs => (hi s hs).trans (Operation.n_act? h).symm⟩

theorem Tidy.clean {r : Run m} (h : r.Tidy) : m.Clean :=
  r.clean_iff.mpr h _ r.mem_states

end Run

theorem edgesOnly_iff : m.EdgesOnly ↔ m.Clean where
  mp h  := numEdges_iff.mp h.numEdges
  mpr h := ⟨numEdges_iff.mpr h, fun _ hr => h.eq_iff hr.clean⟩

-- A run sees nothing but edges, in all of its states, if and only if no step sets a bit of the padding.
theorem run_edgesOnly_iff (r : Run m) : (∀ s ∈ r.states, s.EdgesOnly) ↔ r.Tidy := by
  simp only [edgesOnly_iff, r.clean_iff]

-- Five bits of the only byte belong to no pair of the three vertices.
theorem fromBits_not_edgesOnly :
    let m : AdjacencyMatrix := { n := 3, bits := [255], length_bits := rfl }
    fromBits 3 [255] = .ok m ∧ m.numEdges = 8 ∧ (pairs m.n).countP (fun p => m.edge p.1 p.2) = 3 ∧
      ∃ r : Run (new 3).complement, r.Tidy ∧ m.SameEdges (new 3).complement ∧ m ≠ (new 3).complement := by
  refine ⟨by decide, by decide, by decide, .step (.make (.new 3) rfl) .complement (complement?_eq _), ?_, ?_, by decide⟩
  · exact ⟨trivial, trivial⟩
  · have he : ∀ i < 3, ∀ j < 3, AdjacencyMatrix.edge ⟨3, [255], rfl⟩ i j = (new 3).complement.edge i j := by decide
    exact ⟨by simp, fun i j hi hj => he i hi j hj⟩

theorem roundTrips_iff (hn : m.n ≤ 62) : m.RoundTrips ↔ m.Clean := by
  have hb : Graph6.encode? m = some (Graph6.encode m) := Graph6.encode?_eq hn
  rw [← Graph6.decode_encode_iff hn]
  constructor
  case mp =>
    intro ⟨bytes, he, hd, _⟩
    cases hb.symm.trans he.encodes
    exact Option.some.inj <| (Graph6.decode?_eq _).symm.trans hd
  case mpr =>
    intro hd
    refine ⟨_, Graph6.encodes_encode hn, (Graph6.decode?_eq _).trans <| congrArg some hd, fun {m'} r hr hn' he => ?_⟩
    rw [Graph6.encode?_eq hn', Option.some.injEq] at he
    have hd' := Graph6.decode_encode_iff hn' |>.mpr hr.clean
    exact Except.ok.inj <| hd'.symm.trans <| he ▸ hd

-- All states of a run survive the codec if and only if no step sets a bit of the padding.
theorem run_roundTrips_iff (r : Run m) (hn : m.n ≤ 62) : (∀ s ∈ r.states, s.RoundTrips) ↔ r.Tidy := by
  rw [← r.clean_iff]
  exact forall₂_congr fun s hs => roundTrips_iff <| (r.n_states s hs).trans_le hn

theorem cherry_roundTrips : ∃ r : Run ((new 3).setEdge 0 2 true).complement, r.states.length = 3 ∧
    ∀ s ∈ r.states, s.RoundTrips := by
  let r : Run ((new 3).setEdge 0 2 true).complement :=
    .step (.step (.make (.new 3) rfl) (.setEdge 0 2 true) rfl) .complement (complement?_eq _)
  exact ⟨r, rfl, (run_roundTrips_iff r <| by decide).mpr ⟨⟨trivial, fun _ => .inr <| by decide⟩, trivial⟩⟩

-- The pair lies outside of the graph, and its bit behind the upper triangle. The codec drops it.
theorem setEdge_not_roundTrips :
    let m : AdjacencyMatrix := { n := 3, bits := [8], length_bits := rfl }
    (new 3).setEdge? 0 5 true = some m ∧ m ≠ new 3 ∧ Graph6.encode? m = some [66, 63] ∧
      Graph6.encode? (new 3) = some [66, 63] ∧ Graph6.decode? [66, 63] = some (.ok <| new 3) ∧ ¬m.RoundTrips := by
  refine ⟨rfl, by decide, rfl, rfl, rfl, fun ⟨bytes, he, hd, _⟩ => ?_⟩
  cases he.encodes
  cases hd

end AdjacencyMatrix
