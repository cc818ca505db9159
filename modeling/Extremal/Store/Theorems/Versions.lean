import Extremal.Store.Theorems.Concurrent

open Lexicographic

namespace Rows

variable {rows : Rows} {n : Int32} {scan : Scan} {since : Option Nat} {cid : String}

theorem mem_leaderboardCids : cid ∈ rows.leaderboardCids n scan since ↔
    ∃ e ∈ rows.board n, (∀ t ∈ since, t < e.admittedAt) ∧ e.cid = cid := by
  cases since
  case none      => simp [leaderboardCids, (scan.perm _).mem_iff]
  case some time => simp [leaderboardCids, (scan.perm _).mem_iff, and_assoc]

end Rows

namespace Phase

-- The call has passed its `INSERT` and is going to answer with a rank, or has done so.
def hasInserted : Phase → Bool
  | trim _ | trimming _ _ | commit (some _) | committed (some _) => true
  | _                                                            => false

-- The call has admitted its graph and committed.
def hasAdmitted : Phase → Bool
  | committed (some _) => true
  | _                  => false

theorem isCommitted_of_hasAdmitted {phase : Phase} (h : phase.hasAdmitted) : phase.isCommitted := by
  cases phase <;> first | rfl | cases h

theorem isCommitted_iff {phase : Phase} : phase.isCommitted ↔ ∃ admitted, phase = .committed admitted := by
  cases phase <;> simp [isCommitted]

end Phase

namespace Database

variable {m : Nat} {offers : Fin m → Offer} {s s' : Database m} {i : Fin m} {move : Move m} {row : Nat} {phase : Phase}

-- What a statement of a call may do to the rows: it leaves them, deletes one or inserts one.
inductive Writes (offers : Fin m → Offer) (s : Database m) (i : Fin m) : List (Version m) → Prop
  | none : Writes offers s i s.versions
  | delete (hv : s.versions[k]? = some v) (hx : v.xmax = .none) :
    Writes offers s i (s.versions.set k { v with xmax := some i })
  | insert (hp : s.phase i = .insert newRank) :
    Writes offers s i (s.versions ++ [⟨(offers i).entry newRank, some i, .none⟩])

structure Moved (offers : Fin m → Offer) (s : Database m) (i : Fin m) (s' : Database m) : Prop where
  running  : ¬s.isCommitted i
  others   : ∀ j, j ≠ i → s'.phase j = s.phase j
  started  : s'.phase i ≠ .idle
  inserted : (s.phase i).hasInserted ∨ s.versions.length < s'.versions.length → (s'.phase i).hasInserted
  writes   : Writes offers s i s'.versions

theorem Writes.mem_cases {versions : List (Version m)} {v : Version m} (h : Writes offers s i versions)
    (hv : v ∈ versions) :
    v ∈ s.versions ∨ (∃ w ∈ s.versions, w.xmax = .none ∧ v = { w with xmax := some i }) ∨
    ∃ newRank, v = ⟨(offers i).entry newRank, some i, .none⟩ ∧ s.versions.length < versions.length := by
  cases h
  case none => exact .inl hv
  case delete k w hw hx =>
    exact (List.mem_or_eq_of_mem_set hv).imp_right fun he => .inl ⟨w, List.mem_of_getElem? hw, hx, he⟩
  case insert newRank _ =>
    exact (List.mem_append.mp hv).imp_right fun he => .inr ⟨newRank, List.mem_singleton.mp he, by simp⟩

-- A statement inserts no other row than the one of its call.
theorem Writes.entry {versions : List (Version m)} {v : Version m} (h : Writes offers s i versions) (hv : v ∈ versions) :
    (∃ v' ∈ s.versions, v'.entry = v.entry) ∨ ∃ newRank, v.entry = (offers i).entry newRank := by
  rcases h.mem_cases hv with hv | ⟨w, hw, _, rfl⟩ | ⟨newRank, rfl, _⟩
  case inl     => exact .inl ⟨v, hv, rfl⟩
  case inr.inl => exact .inl ⟨w, hw, rfl⟩
  case inr.inr => exact .inr ⟨newRank, rfl⟩

theorem entry_rollback {v : Version m} (hv : v ∈ (s.rollback i).versions) : ∃ v' ∈ s.versions, v'.entry = v.entry := by
  have ⟨v', hv', h⟩ := List.mem_map.mp hv
  refine ⟨v', hv', ?_⟩
  rw [← h]
  split_ifs <;> rfl

theorem phase_rollback_self : (s.rollback i).phase i = .committed none :=
  Function.update_self ..

theorem phase_rollback_of_ne {j : Fin m} (h : j ≠ i) : (s.rollback i).phase j = s.phase j :=
  Function.update_of_ne h ..

theorem Moved.goto (hr : ¬s.isCommitted i) (hs : phase ≠ .idle) (hi : (s.phase i).hasInserted → phase.hasInserted) :
    Moved offers s i (s.goto i phase) where
  running     := hr
  others _ hj := phase_goto_of_ne hj
  started     := by rwa [phase_goto_self]
  inserted h  := by simpa using hi (h.resolve_right <| lt_irrefl _)
  writes      := .none

theorem Moved.take (hr : ¬s.isCommitted i) (e : s.take i row phase = some s') (hs : phase ≠ .idle)
    (hi : (s.phase i).hasInserted → phase.hasInserted) : Moved offers s i s' := by
  have ⟨v, hv, h⟩ := take_cases e
  rcases h with ⟨_, _, _, rfl⟩ | ⟨hx, rfl⟩
  case inl => exact .goto hr hs hi
  case inr =>
    constructor
    case running  => exact hr
    case others   => exact fun j hj => phase_goto_of_ne hj
    case started  => exact fun h => hs <| by simpa [Database.goto] using h
    case inserted => exact fun h => by simpa [Database.goto] using hi (h.resolve_right <| by simp)
    case writes   => exact .delete hv hx

theorem Moved.insertNew {newRank : Int32} (hp : s.phase i = .insert newRank)
    (e : s.insertNew i ((offers i).entry newRank) (.trim newRank) = some s') : Moved offers s i s' := by
  have hr : ¬s.isCommitted i := by simp [isCommitted, hp, Phase.isCommitted]
  simp only [Database.insertNew] at e
  split at e
  case isTrue  => cases e
  case isFalse =>
    split at e <;> cases e
    case isTrue  => exact .goto hr (by simp) (fun _ => rfl)
    case isFalse =>
      constructor
      case running  => exact hr
      case others   => exact fun j hj => phase_goto_of_ne hj
      case started  => simp [Database.goto]
      case inserted => exact fun _ => by simp [Database.goto, Phase.hasInserted]
      case writes   => exact .insert hp

theorem step_moved (e : s.step offers move = some s') : Moved offers s move.tx s' := by
  have stay {phase} (hr : (s.phase move.tx).isCommitted = false) (hs : phase ≠ .idle)
      (hi : (s.phase move.tx).hasInserted → phase.hasInserted) : Moved offers s move.tx (s.goto move.tx phase) :=
    .goto (by simp [isCommitted, hr]) hs hi
  simp only [Database.step] at e
  cases hp : s.phase move.tx <;> simp only [hp] at e stay
  case idle | evict | rank | trim =>
    cases e
    exact stay rfl (by simp) (by simp [Phase.hasInserted])
  case commit admitted =>
    cases e
    exact stay rfl (by simp) (by cases admitted <;> simp [Phase.hasInserted])
  case existing | count =>
    split at e <;> cases e <;> exact stay rfl (by simp) (by simp [Phase.hasInserted])
  case worst =>
    split at e
    · split at e <;> cases e <;> exact stay rfl (by simp) (by simp [Phase.hasInserted])
    · cases e
      exact stay rfl (by simp) (by simp [Phase.hasInserted])
  case evicting targets | trimming newRank targets =>
    split at e
    case isTrue =>
      cases e
      exact stay rfl (by simp) (by simp [Phase.hasInserted])
    case isFalse =>
      split at e
      case isTrue  => exact .take (by simp [isCommitted, hp, Phase.isCommitted]) e (by simp) (by simp [hp, Phase.hasInserted])
      case isFalse => cases e
  case insert newRank => exact .insertNew hp e
  case committed => cases e

section Live

variable {v : Version m} {n : Int32}

-- The row belongs to the committed board.
def isLive (s : Database m) (v : Version m) : Bool :=
  v.xmin.all s.isCommitted && !v.xmax.any s.isCommitted

theorem mem_board_committedRows {e : LeaderboardEntry} :
    e ∈ s.committedRows.board n ↔ ∃ v ∈ s.versions, s.isLive v ∧ v.entry.n = n ∧ v.entry = e := by
  simp only [Rows.board, committedRows, List.mem_filter, List.mem_map, isLive, decide_eq_true_eq]
  constructor
  case mp  => rintro ⟨⟨v, ⟨hv, hl⟩, rfl⟩, hn⟩; exact ⟨v, hv, hl, hn, rfl⟩
  case mpr => rintro ⟨v, hv, hl, hn, rfl⟩; exact ⟨⟨v, ⟨hv, hl⟩, rfl⟩, hn⟩

theorem Moved.isCommitted (h : Moved offers s i s') {j : Fin m} (hj : s.isCommitted j) : s'.isCommitted j := by
  have hne : j ≠ i := by
    rintro rfl
    exact h.running hj
  rwa [Database.isCommitted, h.others j hne]

-- A row that is on the board after a statement is one of the transaction, or it was there before.
theorem Moved.isLive (h : Moved offers s i s') (hv : v ∈ s'.versions) (hl : s'.isLive v) :
    v.xmin = some i ∨ ∃ v' ∈ s.versions, s.isLive v' ∧ v'.entry = v.entry ∧ v'.xmin = v.xmin := by
  by_cases hi : v.xmin = some i
  case pos => exact .inl hi
  case neg =>
    refine .inr ?_
    have ⟨hmin, hmax⟩ := Bool.and_eq_true_iff.mp hl
    have hmin : v.xmin.all s.isCommitted := by
      cases hx : v.xmin
      case none => rfl
      case some j =>
        have hj : j ≠ i := fun hj => hi <| hj ▸ hx
        rw [hx, Option.all_some, Database.isCommitted, h.others j hj] at hmin
        exact hmin
    have hmax : v.xmax.any s.isCommitted = false := by
      cases hx : v.xmax
      case none => rfl
      case some j =>
        rw [hx, Option.any_some, Bool.not_eq_true'] at hmax
        rw [Option.any_some, Bool.eq_false_iff]
        exact fun hj => absurd (h.isCommitted hj) (by simp [hmax])
    have hold : s.isLive v := by rw [Database.isLive, hmin, hmax]; rfl
    rcases h.writes.mem_cases hv with hv | ⟨w, hw, hx, rfl⟩ | ⟨newRank, rfl, _⟩
    case inl => exact ⟨v, hv, hold, rfl, rfl⟩
    case inr.inl =>
      refine ⟨w, hw, ?_, rfl, rfl⟩
      rw [Database.isLive, hx, hmin]
      rfl
    case inr.inr => exact absurd rfl hi

-- The rows of a transaction come from its offer, and it has passed its `INSERT`.
def Owned (offers : Fin m → Offer) (s : Database m) : Prop :=
  ∀ v ∈ s.versions, ∀ i, v.xmin = some i → (∃ newRank, v.entry = (offers i).entry newRank) ∧ (s.phase i).hasInserted

theorem owned_init (rows : Rows) : (init rows : Database m).Owned offers := by
  intro v hv i hi
  have ⟨_, _, hv⟩ := List.mem_map.mp hv
  cases hv
  cases hi

theorem Owned.moved (h : s.Owned offers) (hm : Moved offers s i s') : s'.Owned offers := by
  have old {v : Version m} {j : Fin m} (hp : (∃ newRank, v.entry = (offers j).entry newRank) ∧ (s.phase j).hasInserted) :
      (∃ newRank, v.entry = (offers j).entry newRank) ∧ (s'.phase j).hasInserted := by
    refine ⟨hp.1, ?_⟩
    by_cases hj : j = i
    case pos => exact hj ▸ hm.inserted (.inl <| hj ▸ hp.2)
    case neg => exact hm.others j hj ▸ hp.2
  intro v hv j hj
  rcases hm.writes.mem_cases hv with hv | ⟨w, hw, _, rfl⟩ | ⟨newRank, rfl, hl⟩
  case inl     => exact old <| h v hv j hj
  case inr.inl => exact old <| h w hw j hj
  case inr.inr =>
    cases hj
    exact ⟨⟨newRank, rfl⟩, hm.inserted <| .inr hl⟩

end Live

end Database
