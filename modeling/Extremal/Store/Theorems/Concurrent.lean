import Extremal.Store.Concurrent
import Extremal.Store.Theorems.Leaderboard
import Mathlib.Data.Finset.Range

open Lexicographic Finset

theorem card_rows_eq_countP (l : List α) (p : α → Bool) : #{k ∈ range l.length | l[k]?.any p} = l.countP p := by
  induction l using List.reverseRecOn
  case nil => rfl
  case append_singleton l a ih =>
    have hlt : {k ∈ range l.length | (l ++ [a])[k]?.any p} = {k ∈ range l.length | l[k]?.any p} :=
      filter_congr fun k hk => by rw [List.getElem?_append_left (mem_range.mp hk)]
    rw [List.length_append, List.length_singleton, range_add_one, filter_insert, List.countP_append, hlt]
    rw [List.getElem?_concat_length, Option.any_some, ← ih]
    by_cases hp : p a
    case pos => rw [if_pos hp, card_insert_of_notMem (by simp), List.countP_cons_of_pos hp, List.countP_nil]
    case neg => rw [if_neg hp, List.countP_cons_of_neg hp, List.countP_nil, Nat.add_zero]

namespace Database

variable {m : Nat} {offers : Fin m → Offer} {s s' : Database m} {i j : Fin m} {n capacity : Int32} {move : Move m}
  {row : Nat} {phase : Phase} {cids : List String} {v : Version m}

-- The rows that stay if all open transactions commit without another statement.
def survives (s : Database m) (n : Int32) (row : Nat) (v : Version m) : Bool :=
  v.entry.n = n ∧ v.xmax = none ∧ ∀ i, row ∉ (s.phase i).targets

def survivors (s : Database m) (n : Int32) : Finset Nat :=
  {row ∈ range s.versions.length | s.versions[row]?.any (s.survives n row)}

theorem mem_survivors : row ∈ s.survivors n ↔
    ∃ v, s.versions[row]? = some v ∧ v.entry.n = n ∧ v.xmax = none ∧ ∀ i, row ∉ (s.phase i).targets := by
  rw [survivors, mem_filter, mem_range]
  cases h : s.versions[row]?
  case none => simp
  case some v =>
    have := (List.getElem?_eq_some_iff.mp h).1
    simp [survives, this]

-- The call has inserted its row and has not yet looked for excess entries.
def Untrimmed (s : Database m) (i : Fin m) : Prop :=
  (∃ newRank, s.phase i = .trim newRank) ∧ ∃ (row : Nat) (v : Version m), s.versions[row]? = some v ∧ v.xmin = some i

theorem untrimmed_iff : s.Untrimmed i ↔ (s.phase i matches .trim _) ∧ ∃ v ∈ s.versions, v.xmin = some i := by
  refine and_congr ?_ ?_
  · cases s.phase i <;> simp
  · simp only [List.mem_iff_getElem?]
    tauto

instance : Decidable (s.Untrimmed i) :=
  decidable_of_iff _ untrimmed_iff.symm

section Steps

@[simp]
theorem versions_goto : (s.goto i phase).versions = s.versions := rfl

@[simp]
theorem phase_goto_self : (s.goto i phase).phase i = phase :=
  Function.update_self ..

@[simp]
theorem phase_goto_of_ne (h : j ≠ i) : (s.goto i phase).phase j = s.phase j :=
  Function.update_of_ne h ..

theorem mem_collect : row ∈ s.collect i n cids ↔
    ∃ v, s.versions[row]? = some v ∧ s.isVisible i v ∧ v.entry.n = n ∧ v.entry.cid ∈ cids := by
  simp [collect, List.mem_zipIdx_iff_getElem?, and_assoc]

theorem Untrimmed.goto_of_ne (h : s.Untrimmed j) (hj : j ≠ i) : (s.goto i phase).Untrimmed j := by
  rwa [Untrimmed, phase_goto_of_ne hj]

theorem survivors_goto (h : (s.phase i).targets ⊆ phase.targets) :
    (s.goto i phase).survivors n ⊆ s.survivors n := by
  intro row hr
  have ⟨v, hv, hn, hx, ht⟩ := mem_survivors.mp hr
  refine mem_survivors.mpr ⟨v, hv, hn, hx, fun j hj => ht j ?_⟩
  by_cases hi : j = i
  case pos =>
    subst hi
    rw [phase_goto_self]
    exact h hj
  case neg => rwa [phase_goto_of_ne hi]

-- A running `DELETE` skips a row that another transaction has deleted, and otherwise deletes it.
theorem take_cases (h : s.take i row phase = some s') : ∃ v, s.versions[row]? = some v ∧
    ((∃ xid, v.xmax = some xid ∧ s.sees i xid ∧ s' = s.goto i phase) ∨
      (v.xmax = none ∧ s' = { s.goto i phase with versions := s.versions.set row { v with xmax := some i } })) := by
  rw [take] at h
  cases hv : s.versions[row]? <;> simp only [hv] at h
  case none => cases h
  case some v =>
    refine ⟨v, rfl, ?_⟩
    cases hm : v.xmax <;> simp only [hm] at h
    case none =>
      cases h
      exact .inr ⟨rfl, rfl⟩
    case some xid =>
      split at h <;> cases h
      exact .inl ⟨xid, rfl, ‹_›, rfl⟩

-- A row that a running `DELETE` takes or skips is gone.
theorem survivors_take (h : s.take i row phase = some s') (ht : (s.phase i).targets.erase row ⊆ phase.targets) :
    s'.survivors n ⊆ s.survivors n := by
  intro k hk
  have ⟨v', hv', hn, hx, hk⟩ := mem_survivors.mp hk
  have htargets (j) (hj : k ∈ (s.phase j).targets) (hne : k ≠ row) : k ∈ ((s.goto i phase).phase j).targets := by
    by_cases hi : j = i
    case pos =>
      subst hi
      rw [phase_goto_self]
      exact ht <| (List.mem_erase_of_ne hne).mpr hj
    case neg => rwa [phase_goto_of_ne hi]
  have ⟨v, hv, h⟩ := take_cases h
  rcases h with ⟨xid, hm, _, rfl⟩ | ⟨hm, rfl⟩
  case inl =>
    have hne : k ≠ row := by
      rintro rfl
      cases hv.symm.trans hv'
      cases hm.symm.trans hx
    exact mem_survivors.mpr ⟨v', hv', hn, hx, fun j hj => hk j <| htargets j hj hne⟩
  case inr =>
    have hne : row ≠ k := by
      rintro rfl
      have hl := (List.getElem?_eq_some_iff.mp hv).1
      rw [List.getElem?_set_self hl] at hv'
      cases hv'
      cases hx
    rw [List.getElem?_set_ne hne] at hv'
    exact mem_survivors.mpr ⟨v', hv', hn, hx, fun j hj => hk j <| htargets j hj hne.symm⟩

theorem Untrimmed.take (hu : s.Untrimmed j) (h : s.take i row phase = some s') (hj : j ≠ i) : s'.Untrimmed j := by
  have ⟨hp, k, v, hv, hx⟩ : (s.goto i phase).Untrimmed j := hu.goto_of_ne hj
  have ⟨v', hr, h⟩ := take_cases h
  rcases h with ⟨_, _, _, rfl⟩ | ⟨_, rfl⟩
  case inl => exact ⟨hp, k, v, hv, hx⟩
  case inr =>
    refine ⟨hp, k, ?_⟩
    by_cases hk : row = k
    case pos =>
      subst hk
      cases hr.symm.trans hv
      exact ⟨_, List.getElem?_set_self (List.getElem?_eq_some_iff.mp hv).1, hx⟩
    case neg => exact ⟨v, by rwa [List.getElem?_set_ne hk], hx⟩

end Steps

-- Of the rows that stay, those that the trim of a call sees and keeps, and those that it cannot see
-- since another open transaction inserted them.
def kept (s : Database m) (offer : Offer) (move : Move m) : Finset Nat :=
  {row ∈ s.survivors offer.n | s.versions[row]?.any fun v => s.isVisible move.tx v ∧
    v.entry.cid ∉ (s.snapshot move.tx).excess offer.n offer.capacity move.scan}

def unseen (s : Database m) (offer : Offer) (move : Move m) : Finset Nat :=
  {row ∈ s.survivors offer.n | s.versions[row]?.any (!s.isVisible move.tx ·)}

-- If a trim is the last one to come for the rows that were inserted so far, then the rows that it keeps
-- leave room for those that it cannot see.
def SafeTrim (offers : Fin m → Offer) (s : Database m) (move : Move m) : Prop :=
  s.Untrimmed move.tx → (∀ j, j ≠ move.tx → ¬s.Untrimmed j) →
    #(s.kept (offers move.tx) move) + #(s.unseen (offers move.tx) move) ≤ (offers move.tx).capacity.toInt

-- Unless some trim is still to come, the rows that stay fit the capacity.
def Covered (s : Database m) (n capacity : Int32) : Prop :=
  (∀ i, ¬s.Untrimmed i) → #(s.survivors n) ≤ capacity.toInt

section Covered

theorem Covered.mono (h : s.Covered n capacity) (hu : ∀ j, s.Untrimmed j → s'.Untrimmed j)
    (hs : s'.survivors n ⊆ s.survivors n) : s'.Covered n capacity :=
  fun hn => le_trans (Int.ofNat_le.mpr <| card_le_card hs) <| h fun j hj => hn j <| hu j hj

theorem Covered.goto (h : s.Covered n capacity) (hp : ∀ newRank, s.phase i ≠ .trim newRank)
    (ht : (s.phase i).targets ⊆ phase.targets) : (s.goto i phase).Covered n capacity := by
  refine h.mono (fun j hj => hj.goto_of_ne ?_) (survivors_goto ht)
  rintro rfl
  exact hp _ hj.1.choose_spec

theorem Covered.take (h : s.Covered n capacity) (hp : ∀ newRank, s.phase i ≠ .trim newRank)
    (e : s.take i row phase = some s') (ht : (s.phase i).targets.erase row ⊆ phase.targets) :
    s'.Covered n capacity := by
  refine h.mono (fun j hj => hj.take e ?_) (survivors_take e ht)
  rintro rfl
  exact hp _ hj.1.choose_spec

theorem Covered.insertNew {e : LeaderboardEntry} {newRank : Int32} (h : s.Covered n capacity)
    (hp : s.phase i = .insert newRank) (he : s.insertNew i e (.trim newRank) = some s') : s'.Covered n capacity := by
  simp only [Database.insertNew] at he
  split at he
  case isTrue  => cases he
  case isFalse =>
    split at he <;> cases he
    case isTrue  => exact h.goto (by simp [hp]) (by simp [hp, Phase.targets])
    case isFalse =>
      refine fun hn => absurd ?_ <| hn i
      exact ⟨⟨newRank, phase_goto_self⟩, s.versions.length, _, List.getElem?_concat_length, rfl⟩

theorem Covered.trim {newRank : Int32} (h : s.Covered (offers move.tx).n (offers move.tx).capacity)
    (hp : s.phase move.tx = .trim newRank) (hs : SafeTrim offers s move)
    (ht : phase.targets = s.collect move.tx (offers move.tx).n
      ((s.snapshot move.tx).excess (offers move.tx).n (offers move.tx).capacity move.scan)) :
    (s.goto move.tx phase).Covered (offers move.tx).n (offers move.tx).capacity := by
  intro hn
  have hothers (j) (hj : j ≠ move.tx) : ¬s.Untrimmed j := fun hu => hn j <| hu.goto_of_ne hj
  have hsub : (s.goto move.tx phase).survivors (offers move.tx).n ⊆ s.survivors (offers move.tx).n :=
    survivors_goto <| by simp [hp, Phase.targets]
  by_cases hu : s.Untrimmed move.tx
  case neg =>
    refine le_trans (Int.ofNat_le.mpr <| card_le_card hsub) <| h fun j hj => ?_
    by_cases he : j = move.tx
    case pos => exact hu (he ▸ hj)
    case neg => exact hothers j he hj
  case pos =>
    refine le_trans (Int.ofNat_le.mpr <| (card_le_card fun row hr => ?_).trans <| card_union_le ..) <| hs hu hothers
    have ⟨_, _, _, _, hnt⟩ := mem_survivors.mp hr
    have hnt := hnt move.tx
    have hr := hsub hr
    have ⟨v, hv, hvn, _⟩ := mem_survivors.mp hr
    rw [phase_goto_self, ht, mem_collect] at hnt
    rw [mem_union, kept, unseen, mem_filter, mem_filter, hv]
    by_cases hvis : s.isVisible move.tx v
    case pos =>
      refine .inl ⟨hr, ?_⟩
      simp only [Option.any_some, hvis, true_and, decide_eq_true_eq]
      exact fun hc => hnt ⟨v, hv, hvis, hvn, hc⟩
    case neg => exact .inr ⟨hr, by simpa using hvis⟩

theorem Covered.step (h : s.Covered (offers move.tx).n (offers move.tx).capacity) (hs : SafeTrim offers s move)
    (e : s.step offers move = some s') : s'.Covered (offers move.tx).n (offers move.tx).capacity := by
  have stay {phase} (hp : ∀ newRank, s.phase move.tx ≠ .trim newRank) (ht : (s.phase move.tx).targets = []) :
      (s.goto move.tx phase).Covered (offers move.tx).n (offers move.tx).capacity :=
    h.goto hp <| by simp [ht]
  simp only [Database.step] at e
  cases hp : s.phase move.tx <;> simp only [hp] at e stay
  case idle | evict | rank | commit =>
    cases e
    exact stay (by simp) rfl
  case existing | count =>
    split at e <;> cases e <;> exact stay (by simp) rfl
  case worst =>
    split at e
    · split at e <;> cases e <;> exact stay (by simp) rfl
    · cases e
      exact stay (by simp) rfl
  case evicting targets | trimming newRank targets =>
    split at e
    case isTrue ht =>
      cases e
      exact stay (by simp) ht
    case isFalse =>
      split at e
      case isTrue  => exact h.take (by simp [hp]) e (by simp [hp, Phase.targets])
      case isFalse => cases e
  case insert newRank => exact h.insertNew hp e
  case trim newRank =>
    cases e
    exact h.trim hp hs rfl
  case committed => cases e

theorem Covered.run (ho : ∀ i, (offers i).n = n ∧ (offers i).capacity = capacity) (h : s.Covered n capacity)
    (r : Run offers (SafeTrim offers) s s') : s'.Covered n capacity := by
  induction r
  case refl => exact h
  case step move _ _ hs e hi =>
    have ⟨hn, hc⟩ := ho move.tx
    rw [← hn, ← hc] at hi ⊢
    exact hi.step hs e

theorem covered_init {rows : Rows} (h : rows.leaderboardCount n ≤ capacity.toInt) :
    (init rows : Database m).Covered n capacity := by
  intro _
  have hs : (init rows : Database m).survivors n = {row ∈ range (init rows : Database m).versions.length |
      (init rows : Database m).versions[row]?.any (·.entry.n = n)} := by
    refine filter_congr fun row _ => ?_
    simp only [init, List.getElem?_map]
    cases rows[row]? <;> simp [survives, Phase.targets]
  rw [hs, card_rows_eq_countP, init, List.countP_map]
  rwa [Rows.leaderboardCount, Rows.board, ← List.countP_eq_length_filter] at h

-- Once all calls have committed, no delete is running.
theorem card_survivors (h : ∀ i, s.isCommitted i) : #(s.survivors n) = s.committedRows.leaderboardCount n := by
  have ht (i) : (s.phase i).targets = [] := by
    have := h i
    cases hp : s.phase i <;> simp_all [isCommitted, Phase.isCommitted, Phase.targets]
  have hs : s.survivors n = {row ∈ range s.versions.length | s.versions[row]?.any fun v => v.entry.n = n ∧ v.xmax = none} := by
    refine filter_congr fun row _ => ?_
    cases s.versions[row]? <;> simp [survives, ht]
  rw [hs, card_rows_eq_countP, Rows.leaderboardCount, Rows.board, ← List.countP_eq_length_filter, committedRows,
    List.countP_map, List.countP_filter]
  refine List.countP_congr fun v _ => ?_
  cases v.xmin <;> cases v.xmax <;> simp [h]

-- A trim that sees all rows is never too early.
theorem safeTrim_of_unseen (h : s.unseen (offers move.tx) move = ∅) (hc : 0 ≤ (offers move.tx).capacity.toInt) :
    SafeTrim offers s move := by
  intro _ _
  rw [h, card_empty, Int.ofNat_zero, Int.add_zero]
  refine le_trans (Int.ofNat_le.mpr ?_) <|
    (s.snapshot move.tx).length_filter_excess_le (offers move.tx).n move.scan hc
  rw [← List.countP_eq_length_filter, Rows.board, List.countP_filter, snapshot, List.countP_map, List.countP_filter,
    ← card_rows_eq_countP]
  refine card_le_card fun row hr => ?_
  obtain ⟨hs, hk⟩ := mem_filter.mp hr
  obtain ⟨v, hv, hn, _⟩ := mem_survivors.mp hs
  rw [hv] at hk
  rw [mem_filter, hv]
  rw [Option.any_some, decide_eq_true_eq] at hk
  refine ⟨(mem_filter.mp hs).1, ?_⟩
  simpa [hk.1, hn, snapshot] using hk.2

-- Neither is a trim that another one follows.
theorem safeTrim_of_untrimmed (h : ∃ j, j ≠ move.tx ∧ s.Untrimmed j) : SafeTrim offers s move := by
  have ⟨j, hj, hu⟩ := h
  exact fun _ hn => absurd hu <| hn j hj

end Covered

theorem Run.of_moves {P : Database m → Move m → Prop} {check : Database m → Move m → Bool}
    (hP : ∀ s move, check s move → P s move) (moves : List (Move m)) :
    ∀ {s'}, moves.foldlM (fun s move => if check s move then s.step offers move else none) s = some s' →
      Run offers P s s' := by
  induction moves using List.reverseRecOn
  case nil =>
    intro s' h
    cases h
    exact .refl
  case append_singleton moves move ih =>
    intro s' h
    simp only [List.foldlM_append, List.foldlM_cons, List.foldlM_nil, bind_pure] at h
    have ⟨s₁, hs₁, he⟩ := Option.bind_eq_some_iff.mp h
    split at he
    case isTrue hc  => exact (ih hs₁).step (hP _ _ hc) he
    case isFalse    => cases he

end Database

open Database

-- If no trim of the run comes too early for the rows that it cannot see, then the board fits the
-- capacity once all calls have committed.
theorem Database.leaderboardCount_le {m : Nat} {offers : Fin m → Offer} {n capacity : Int32}
    (ho : ∀ i, (offers i).n = n ∧ (offers i).capacity = capacity) {rows : Rows}
    (hrows : rows.leaderboardCount n ≤ capacity.toInt) {s : Database m}
    (r : Run offers (SafeTrim offers) (init rows) s) (hs : ∀ i, s.isCommitted i) :
    s.committedRows.leaderboardCount n ≤ capacity.toInt := by
  rw [← card_survivors hs]
  refine (covered_init hrows).run ho r fun i hi => ?_
  have ⟨newRank, hp⟩ := hi.1
  have := hs i
  simp [isCommitted, hp, Phase.isCommitted] at this

-- Two graphs for a board of one row.
def rivals (i : Fin 2) : Offer :=
  if i = 0 then .ofByte "a" 5 1 else .ofByte "b" 3 1

-- Runs the given calls, which meet the rows as they come and delete the row `0` if any.
def runRivals (check : Database 2 → Move 2 → Bool) (txs : List (Fin 2)) : Option (Database 2) :=
  txs.map (fun i => ⟨i, .heap, 0⟩) |>.foldlM (fun s move => if check s move then s.step rivals move else none) (init [])

-- Both calls count, insert and trim before either of them commits.
theorem Database.rivals_exceed_capacity : ¬∀ (rows : Rows) (s : Database 2), rows.leaderboardCount 5 ≤ 1 →
    Run rivals (fun _ _ => True) (init rows) s → (∀ i, s.isCommitted i) → s.committedRows.leaderboardCount 5 ≤ 1 := by
  intro h
  have he : (runRivals (fun _ _ => true) <| (List.replicate 8 [0, 1]).flatten).any fun s =>
      (∀ i, s.isCommitted i) ∧ s.committedRows.leaderboardCount 5 = 2 := by decide +kernel
  have ⟨s, hs, hc⟩ := (Option.any_eq_true ..).mp he
  have ⟨hc, hn⟩ := of_decide_eq_true hc
  have := h [] s (by decide) (.of_moves (fun _ _ _ => trivial) _ hs) hc
  omega

-- Both calls insert before one of them trims. The last trim sees the row of the other call and deletes it.
theorem Database.rivals_trim_in_turn : ∃ s, Run rivals (SafeTrim rivals) (init []) s ∧ (∀ i, s.isCommitted i) ∧
    s.committedRows.map (·.cid) = ["b"] ∧ s.committedRows.leaderboardCount 5 ≤ (1 : Int32).toInt := by
  let check (s : Database 2) (move : Move 2) : Bool :=
    s.unseen (rivals move.tx) move = ∅ ∨ ∃ j, j ≠ move.tx ∧ s.Untrimmed j
  have he : (runRivals check <| (List.replicate 5 [0, 1]).flatten ++ List.replicate 3 0 ++ List.replicate 4 1).any
      fun s => (∀ i, s.isCommitted i) ∧ s.committedRows.map (·.cid) = ["b"] := by decide +kernel
  have ⟨s, hs, hc⟩ := (Option.any_eq_true ..).mp he
  have ⟨hc, hb⟩ := of_decide_eq_true hc
  have hcap : ∀ i, 0 ≤ (rivals i).capacity.toInt := by decide
  have hcheck (s : Database 2) (move : Move 2) (h : check s move) : SafeTrim rivals s move :=
    (of_decide_eq_true h).elim (safeTrim_of_unseen · <| hcap move.tx) safeTrim_of_untrimmed
  have hrun : Run rivals (SafeTrim rivals) (init []) s := .of_moves hcheck _ hs
  exact ⟨s, hrun, hc, hb, leaderboardCount_le (by decide) (by decide) hrun hc⟩
