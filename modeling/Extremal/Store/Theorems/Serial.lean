import Extremal.Store.Theorems.Concurrent

open Lexicographic

theorem filterMap_rows (l : List α) (f : α → Option β) :
    (List.range l.length).filterMap (fun k => l[k]?.bind f) = l.filterMap f := by
  induction l using List.reverseRecOn
  case nil => rfl
  case append_singleton l a ih =>
    have hlt : (List.range l.length).filterMap (fun k => (l ++ [a])[k]?.bind f) = l.filterMap f := by
      rw [← ih]
      refine List.filterMap_congr fun k hk => ?_
      rw [List.getElem?_append_left (List.mem_range.mp hk)]
    rw [List.length_append, List.length_singleton, List.range_succ, List.filterMap_append, hlt, List.filterMap_append]
    simp [List.filterMap_cons]

namespace Phase

-- Without other calls, each statement leads to a later stage.
def stage : Phase → Nat
  | idle         => 11
  | existing     => 10
  | count        => 9
  | worst        => 8
  | evict _      => 7
  | evicting _   => 6
  | rank         => 5
  | insert _     => 4
  | trim _       => 3
  | trimming _ _ => 2
  | commit _     => 1
  | committed _  => 0

end Phase

namespace Offer

variable (offer : Offer)

-- What the rest of a call reports and leaves behind if no other call moves. The rows are those that it
-- sees, without those that a running `DELETE` has yet to take.
def outcome (rows : Rows) : Phase → Option Int32 × Rows
  | .idle => outcome rows .existing
  | .existing =>
    if (rows.existing offer.n offer.cid).isSome then outcome rows <| .commit none
    else outcome rows .count
  | .count =>
    if rows.leaderboardCount offer.n ≥ offer.capacity.toInt then outcome rows .worst
    else outcome rows .rank
  | .worst =>
    match rows.worst offer.n offer.scan with
    | some worst =>
      if offer.scoreBytes ≥ worst.scoreBytes then outcome rows <| .commit none
      else outcome rows <| .evict worst.cid
    | none => outcome rows .rank
  | .evict cid => outcome (rows.delete offer.n [cid]) <| .evicting []
  | .evicting _ => outcome rows .rank
  | .rank => outcome rows <| .insert <| offer.newRank rows
  | .insert newRank => outcome (rows.insertNew <| offer.entry newRank) <| .trim newRank
  | .trim newRank =>
    outcome (rows.delete offer.n <| rows.excess offer.n offer.capacity offer.scan) <| .trimming newRank []
  | .trimming newRank _ => outcome rows <| .commit <| some newRank
  | .commit admitted => outcome rows <| .committed admitted
  | .committed admitted => (admitted, rows)
termination_by phase => phase.stage
decreasing_by all_goals simp [Phase.stage]

theorem outcome_rank (table : Leaderboard) : offer.outcome table.rows .rank =
    let newRank := offer.newRank table.rows
    (some newRank, (table.insertNew <| offer.entry newRank).trimLeaderboard offer.n offer.capacity offer.scan |>.rows) := by
  simp only [outcome]
  rfl

theorem outcome_idle (table : Leaderboard) :
    offer.outcome table.rows .idle = ((offer.tryAdmit table).1, (offer.tryAdmit table).2.rows) := by
  rw [outcome, outcome, tryAdmit]
  split
  case isTrue => rw [outcome, outcome]
  case isFalse =>
    rw [outcome, evictWorst]
    split
    case isFalse => exact offer.outcome_rank table
    case isTrue =>
      rw [outcome]
      cases table.rows.worst offer.n offer.scan <;> simp only
      case none => exact offer.outcome_rank table
      case some worst =>
        split
        case isTrue  => rw [outcome, outcome]
        case isFalse =>
          rw [outcome, outcome]
          exact offer.outcome_rank <| table.delete offer.n [worst.cid]

end Offer

namespace Database

variable {m : Nat} {offers : Fin m → Offer} {s s' : Database m} {i j : Fin m} {n : Int32} {move : Move m}
  {row : Nat} {phase : Phase} {cids : List String} {v : Version m}

-- Only one call moves.
def Alone (offers : Fin m → Offer) (i : Fin m) (_ : Database m) (move : Move m) : Prop :=
  move.tx = i ∧ move.scan = (offers i).scan

-- No version is in doubt, and a running `DELETE` has found its rows in the table.
structure Settled (s : Database m) (i : Fin m) : Prop where
  versions : ∀ v ∈ s.versions, v.xmin.all (s.sees i) ∧ v.xmax.all (s.sees i)
  targets  : ∀ row ∈ (s.phase i).targets, row < s.versions.length

-- No open transaction has written.
def Quiet (s : Database m) : Prop :=
  ∀ v ∈ s.versions, v.xmin.all s.isCommitted ∧ v.xmax.all s.isCommitted

-- The rows that a call sees, without those that its running `DELETE` has yet to take.
def pending (s : Database m) (i : Fin m) : Rows :=
  (List.range s.versions.length).filterMap fun row =>
    s.versions[row]?.bind fun v => if s.isVisible i v ∧ row ∉ (s.phase i).targets then some v.entry else none

section Visibility

@[simp]
theorem sees_goto : (s.goto i phase).sees i = s.sees i := by
  funext xid
  by_cases h : xid = i
  case pos => simp [sees, h]
  case neg => simp [sees, isCommitted, phase_goto_of_ne h]

@[simp]
theorem isVisible_goto : (s.goto i phase).isVisible i = s.isVisible i := by
  funext v
  simp [isVisible]

@[simp]
theorem isVisible_write {versions : List (Version m)} : { s with versions := versions }.isVisible i = s.isVisible i := rfl

@[simp]
theorem snapshot_goto : (s.goto i phase).snapshot i = s.snapshot i := by
  simp [snapshot]

theorem snapshot_eq_filterMap : s.snapshot i = s.versions.filterMap fun v => if s.isVisible i v then some v.entry else none := by
  rw [snapshot, ← List.filterMap_eq_map, ← List.filterMap_eq_filter, List.filterMap_filterMap]
  refine List.filterMap_congr fun v _ => ?_
  by_cases h : s.isVisible i v <;> simp [h, Option.guard]

theorem pending_eq_snapshot (h : (s.phase i).targets = []) : s.pending i = s.snapshot i := by
  simp only [pending, h, List.not_mem_nil, not_false_eq_true, and_true]
  rw [filterMap_rows, snapshot_eq_filterMap]

theorem pending_goto (h : phase.targets = []) : (s.goto i phase).pending i = s.snapshot i := by
  rw [pending_eq_snapshot (by rwa [phase_goto_self]), snapshot_goto]

theorem delete_snapshot : (s.snapshot i).delete n cids =
    s.versions.filterMap fun v => if s.isVisible i v ∧ ¬(v.entry.n = n ∧ v.entry.cid ∈ cids) then some v.entry else none := by
  rw [Rows.delete, snapshot_eq_filterMap, List.filter_filterMap]
  refine List.filterMap_congr fun v _ => ?_
  by_cases h : s.isVisible i v <;> simp [h, Option.filter, imp_iff_not_or]

theorem pending_goto_collect (h : phase.targets = s.collect i n cids) :
    (s.goto i phase).pending i = (s.snapshot i).delete n cids := by
  rw [delete_snapshot, ← filterMap_rows, pending]
  refine List.filterMap_congr fun row _ => ?_
  rw [versions_goto, phase_goto_self, h]
  cases hv : s.versions[row]?
  case none => rfl
  case some v => by_cases h : s.isVisible i v <;> simp [mem_collect, hv, h]

end Visibility

section Settled

theorem Settled.goto (h : s.Settled i) (ht : ∀ row ∈ phase.targets, row < s.versions.length) :
    (s.goto i phase).Settled i where
  versions v hv := by
    rw [sees_goto]
    exact h.versions v hv
  targets := by rwa [phase_goto_self]

theorem Settled.goto_collect (h : s.Settled i) (ht : phase.targets = s.collect i n cids) : (s.goto i phase).Settled i :=
  h.goto fun row hr => by
    have ⟨_, hv, _⟩ := mem_collect.mp <| ht ▸ hr
    exact (List.getElem?_eq_some_iff.mp hv).1

theorem Settled.not_inDoubt (h : s.Settled i) (hv : v ∈ s.versions) : ¬s.inDoubt i v := by
  have ⟨hmin, hmax⟩ := h.versions v hv
  cases hi : v.xmin <;> cases ha : v.xmax <;> simp_all [inDoubt]

theorem Settled.take (h : s.Settled i) (e : s.take i row phase = some s')
    (ht : phase.targets = (s.phase i).targets.erase row) : s'.Settled i := by
  have hg : (s.goto i phase).Settled i := h.goto fun k hk => h.targets k <| List.mem_of_mem_erase <| ht ▸ hk
  have ⟨v, hv, he⟩ := take_cases e
  rcases he with ⟨_, _, _, rfl⟩ | ⟨_, rfl⟩
  case inl => exact hg
  case inr =>
    refine ⟨fun v' hv' => ?_, fun k hk => by simpa using hg.targets k hk⟩
    rcases List.mem_or_eq_of_mem_set hv' with hv' | rfl
    case inl => exact hg.versions v' hv'
    case inr => exact ⟨(hg.versions v <| List.mem_of_getElem? hv).1, by simp [sees]⟩

theorem phase_take (e : s.take i row phase = some s') : s'.phase i = phase := by
  have ⟨_, _, he⟩ := take_cases e
  rcases he with ⟨_, _, _, rfl⟩ | ⟨_, rfl⟩ <;> exact phase_goto_self

-- The row that a `DELETE` takes was not pending, and no longer is visible.
theorem pending_take (e : s.take i row phase = some s') (hr : row ∈ (s.phase i).targets)
    (ht : phase.targets = (s.phase i).targets.erase row) : s'.pending i = s.pending i := by
  have htargets (k) (hk : k ≠ row) : k ∈ phase.targets ↔ k ∈ (s.phase i).targets := by
    rw [ht, List.mem_erase_of_ne hk]
  have ⟨v, hv, he⟩ := take_cases e
  rcases he with ⟨xid, hx, hs, rfl⟩ | ⟨_, rfl⟩
  case inl =>
    have hvis : ¬s.isVisible i v := by simp [isVisible, hx, hs]
    refine List.filterMap_congr fun k _ => ?_
    rw [versions_goto, phase_goto_self, isVisible_goto]
    by_cases hk : k = row
    case pos => simp [hk, hv, hvis]
    case neg => simp only [htargets k hk]
  case inr =>
    have hvis (s₁ : Database m) : ¬s₁.isVisible i { v with xmax := some i } := by simp [isVisible, sees]
    have hl := (List.getElem?_eq_some_iff.mp hv).1
    rw [pending, pending, List.length_set]
    refine List.filterMap_congr fun k _ => ?_
    by_cases hk : k = row
    case pos => simp [hk, hl, hr, hvis]
    case neg =>
      rw [List.getElem?_set_ne (Ne.symm hk), isVisible_write, isVisible_goto, phase_goto_self]
      simp only [htargets k hk]

theorem Settled.insertNew_eq (h : s.Settled i) (e : LeaderboardEntry) : s.insertNew i e phase = some
    (if (s.snapshot i).any fun e' => e'.n = e.n ∧ e'.cid = e.cid then s.goto i phase
      else { s.goto i phase with versions := s.versions ++ [⟨e, some i, none⟩] }) := by
  have hd : ¬(s.versions.filter fun v => v.entry.n = e.n ∧ v.entry.cid = e.cid).any (s.inDoubt i) := by
    rw [List.any_eq_true, not_exists]
    exact fun v hv => h.not_inDoubt (List.mem_filter.mp hv.1).1 hv.2
  have hs : (s.versions.filter fun v => v.entry.n = e.n ∧ v.entry.cid = e.cid).any (s.isVisible i) =
      (s.snapshot i).any fun e' => e'.n = e.n ∧ e'.cid = e.cid := by
    rw [snapshot, List.any_map, List.any_filter, List.any_filter]
    simp only [Function.comp_apply, Bool.and_comm]
  rw [Database.insertNew, if_neg hd, hs]
  split <;> rfl

theorem Settled.insertNew {e : LeaderboardEntry} (h : s.Settled i) (he : s.insertNew i e phase = some s')
    (ht : phase.targets = []) : s'.Settled i ∧ s'.pending i = (s.snapshot i).insertNew e := by
  have hg : (s.goto i phase).Settled i := h.goto <| by simp [ht]
  rw [h.insertNew_eq, Option.some_inj] at he
  rw [Rows.insertNew]
  split at he <;> subst he
  case isTrue hc => exact ⟨hg, by rw [if_pos hc, pending_goto ht]⟩
  case isFalse hc =>
    refine ⟨⟨fun v hv => ?_, by simp [ht]⟩, ?_⟩
    · rcases List.mem_append.mp hv with hv | hv
      case inl => exact hg.versions v hv
      case inr =>
        cases List.mem_singleton.mp hv
        exact ⟨by simp [sees], rfl⟩
    · rw [if_neg hc, pending_eq_snapshot (by simp [ht]), snapshot, isVisible_write, isVisible_goto, List.filter_append,
        List.map_append, snapshot]
      simp [isVisible, sees]

end Settled

-- A statement of a lone call does the part of the call that it stands for.
theorem Settled.step (h : s.Settled i) (ha : Alone offers i s move) (e : s.step offers move = some s') :
    s'.Settled i ∧
      (offers i).outcome (s'.pending i) (s'.phase i) = (offers i).outcome (s.pending i) (s.phase i) := by
  have ⟨hi, hs⟩ := ha
  subst hi
  have stay {phase} (ht : phase.targets = []) (hp : (s.phase move.tx).targets = [])
      (ho : (offers move.tx).outcome (s.snapshot move.tx) phase =
        (offers move.tx).outcome (s.snapshot move.tx) (s.phase move.tx)) :
      (s.goto move.tx phase).Settled move.tx ∧
        (offers move.tx).outcome ((s.goto move.tx phase).pending move.tx) ((s.goto move.tx phase).phase move.tx) =
          (offers move.tx).outcome (s.pending move.tx) (s.phase move.tx) :=
    ⟨h.goto <| by simp [ht], by rw [pending_goto ht, phase_goto_self, pending_eq_snapshot hp, ho]⟩
  simp only [Database.step] at e
  cases hp : s.phase move.tx <;> simp only [hp] at e stay
  case idle | rank | commit =>
    cases e
    exact stay rfl rfl <| by rw [Offer.outcome]
  case existing | count =>
    split at e <;> cases e
    case isTrue hc  => exact stay rfl rfl <| by rw [Offer.outcome, if_pos hc]
    case isFalse hc => exact stay rfl rfl <| by rw [Offer.outcome, if_neg hc]
  case worst =>
    rw [hs] at e
    split at e
    case h_2 hw =>
      cases e
      exact stay rfl rfl <| by rw [Offer.outcome, hw]
    case h_1 hw =>
      split at e <;> cases e
      case isTrue hc  => exact stay rfl rfl <| by simp only [Offer.outcome, hw, if_pos hc]
      case isFalse hc => exact stay rfl rfl <| by simp only [Offer.outcome, hw, if_neg hc]
  case evict cid =>
    cases e
    refine ⟨h.goto_collect rfl, ?_⟩
    rw [pending_goto_collect rfl, phase_goto_self, pending_eq_snapshot (by simp [hp, Phase.targets])]
    simp only [Offer.outcome]
  case trim newRank =>
    cases e
    refine ⟨h.goto_collect rfl, ?_⟩
    rw [pending_goto_collect rfl, phase_goto_self, pending_eq_snapshot (by simp [hp, Phase.targets]), hs]
    simp only [Offer.outcome]
  case insert newRank =>
    obtain ⟨hs', hr⟩ := h.insertNew e rfl
    have hp' : s'.phase move.tx = .trim newRank := by
      rw [h.insertNew_eq, Option.some_inj] at e
      split at e <;> subst e <;> simp
    refine ⟨hs', ?_⟩
    rw [hr, hp', pending_eq_snapshot (by simp [hp, Phase.targets])]
    conv_rhs => rw [Offer.outcome]
  case evicting targets | trimming newRank targets =>
    split at e
    case isTrue ht =>
      cases e
      exact stay rfl ht <| by rw [Offer.outcome]
    case isFalse =>
      split at e
      case isFalse => cases e
      case isTrue hr =>
        have hp' := phase_take e
        refine ⟨h.take e (by rw [hp]; rfl), ?_⟩
        rw [pending_take e (by rwa [hp]) (by rw [hp]; rfl), hp']
        simp only [Offer.outcome]
  case committed => cases e

theorem Settled.run (h : s.Settled i) (r : Run offers (Alone offers i) s s') :
    s'.Settled i ∧
      (offers i).outcome (s'.pending i) (s'.phase i) = (offers i).outcome (s.pending i) (s.phase i) := by
  induction r
  case refl => exact ⟨h, rfl⟩
  case step ha e hr =>
    have ⟨hs, ho⟩ := hr.1.step ha e
    exact ⟨hs, ho.trans hr.2⟩

section Termination

theorem Settled.exists_take (h : s.Settled i) (hr : row ∈ (s.phase i).targets) (phase : Phase) :
    ∃ s', s.take i row phase = some s' := by
  have ⟨v, hv⟩ : ∃ v, s.versions[row]? = some v := ⟨_, List.getElem?_eq_getElem <| h.targets row hr⟩
  have hx := (h.versions v <| List.mem_of_getElem? hv).2
  rw [Database.take, hv]
  cases hm : v.xmax <;> simp only [hm]
  case none => exact ⟨_, rfl⟩
  case some xid =>
    rw [hm, Option.all_some] at hx
    exact ⟨_, if_pos hx⟩

-- A lone call that has not committed can move, to a later stage or with fewer rows to take.
theorem Settled.exists_step (h : s.Settled i) (hc : ¬s.isCommitted i) : ∃ move s', Alone offers i s move ∧
    s.step offers move = some s' ∧ Prod.Lex (· < ·) (· < ·) ((s'.phase i).stage, (s'.phase i).targets.length)
      ((s.phase i).stage, (s.phase i).targets.length) := by
  refine ⟨⟨i, (offers i).scan, (s.phase i).targets.headD 0⟩, ?_⟩
  simp only [Database.step, Alone, true_and]
  cases hp : s.phase i <;> simp only
  case idle | evict | rank | trim | commit => exact ⟨_, rfl, by simp [Prod.lex_def, Phase.stage]⟩
  case existing | count => split <;> exact ⟨_, rfl, by simp [Prod.lex_def, Phase.stage]⟩
  case worst =>
    split
    · split <;> exact ⟨_, rfl, by simp [Prod.lex_def, Phase.stage]⟩
    · exact ⟨_, rfl, by simp [Prod.lex_def, Phase.stage]⟩
  case insert =>
    rw [h.insertNew_eq]
    refine ⟨_, rfl, ?_⟩
    split <;> simp [Prod.lex_def, Phase.stage]
  case evicting targets | trimming newRank targets =>
    cases targets
    case nil => exact ⟨_, rfl, by simp [Prod.lex_def, Phase.stage]⟩
    case cons row targets =>
      rw [if_neg (by simp), if_pos (by simp [Phase.targets])]
      have hr : row ∈ (s.phase i).targets := by
        rw [hp]
        exact List.mem_cons_self
      refine (h.exists_take hr _).imp fun s' e => ⟨e, ?_⟩
      rw [phase_take e]
      simp [Prod.lex_def, Phase.targets, Phase.stage]
  case committed => simp [isCommitted, hp, Phase.isCommitted] at hc

theorem Run.head {P : Database m → Move m → Prop} {s₁ : Database m} (h : P s move) (e : s.step offers move = some s₁)
    (r : Run offers P s₁ s') : Run offers P s s' := by
  induction r
  case refl          => exact .step .refl h e
  case step hP he hr => exact .step hr hP he

theorem Settled.exists_run {s : Database m} (h : s.Settled i) : ∃ s', Run offers (Alone offers i) s s' ∧ s'.isCommitted i :=
  if hc : s.isCommitted i then
    ⟨s, .refl, hc⟩
  else
    have ⟨_, _, ha, e, _⟩ : ∃ move s', Alone offers i s move ∧ s.step offers move = some s' ∧ _ := h.exists_step hc
    have ⟨s', r, hs⟩ := (h.step ha e).1.exists_run
    ⟨s', r.head ha e, hs⟩
termination_by ((s.phase i).stage, (s.phase i).targets.length)
decreasing_by assumption

end Termination

section Quiet

theorem Quiet.settled (h : s.Quiet) (ht : (s.phase i).targets = []) : s.Settled i where
  versions v hv := by
    have ⟨hmin, hmax⟩ := h v hv
    constructor
    · cases hm : v.xmin <;> simp_all [sees]
    · cases hm : v.xmax <;> simp_all [sees]
  targets := by simp [ht]

theorem Settled.quiet (h : s.Settled i) (hc : s.isCommitted i) : s.Quiet := by
  have hs : s.sees i = s.isCommitted := by
    funext xid
    by_cases hi : xid = i
    case pos => simp [sees, hi, hc]
    case neg => simp [sees, hi]
  intro v hv
  rw [← hs]
  exact h.versions v hv

theorem Quiet.committedRows (h : s.Quiet) (i : Fin m) : s.committedRows = s.snapshot i := by
  rw [Database.committedRows, snapshot]
  congr 1
  refine List.filter_congr fun v hv => ?_
  obtain ⟨hmin, hmax⟩ := h v hv
  rw [isVisible]
  cases hi : v.xmin <;> cases ha : v.xmax <;> simp_all [sees]

theorem quiet_init (rows : Rows) : (init rows : Database m).Quiet := by
  intro v hv
  have ⟨_, _, he⟩ := List.mem_map.mp hv
  subst he
  exact ⟨rfl, rfl⟩

theorem committedRows_init (rows : Rows) : (init rows : Database m).committedRows = rows := by
  rw [Database.committedRows, init, List.filter_map, List.map_map]
  simp [Function.comp_def]

end Quiet

theorem phase_step_of_ne (e : s.step offers move = some s') (hj : j ≠ move.tx) : s'.phase j = s.phase j := by
  simp only [Database.step] at e
  cases hp : s.phase move.tx <;> simp only [hp] at e
  case idle | evict | rank | trim | commit =>
    cases e
    exact phase_goto_of_ne hj
  case existing | count => split at e <;> cases e <;> exact phase_goto_of_ne hj
  case worst =>
    split at e
    · split at e <;> cases e <;> exact phase_goto_of_ne hj
    · cases e
      exact phase_goto_of_ne hj
  case evicting | trimming =>
    split at e
    · cases e
      exact phase_goto_of_ne hj
    · split at e
      · obtain ⟨_, _, he⟩ := take_cases e
        rcases he with ⟨_, _, _, rfl⟩ | ⟨_, rfl⟩ <;> exact phase_goto_of_ne hj
      · cases e
  case insert =>
    simp only [Database.insertNew] at e
    split at e
    · cases e
    · split at e <;> cases e <;> exact phase_goto_of_ne hj
  case committed => cases e

theorem phase_run_of_ne (r : Run offers (Alone offers i) s s') (hj : j ≠ i) : s'.phase j = s.phase j := by
  induction r
  case refl => rfl
  case step ha e hr => rw [phase_step_of_ne e (ha.1.symm ▸ hj), hr]

-- A lone call commits what `tryAdmit` computes.
theorem Quiet.tryAdmit {table : Leaderboard} (h : s.Quiet) (hi : s.phase i = .idle) (ht : s.committedRows = table.rows)
    (r : Run offers (Alone offers i) s s') (hc : s'.isCommitted i) :
    s'.Quiet ∧ s'.phase i = .committed ((offers i).tryAdmit table).1 ∧
      s'.committedRows = ((offers i).tryAdmit table).2.rows := by
  have htargets : (s.phase i).targets = [] := by rw [hi]; rfl
  have ⟨hs, ho⟩ := (h.settled htargets).run r
  have hq := hs.quiet hc
  refine ⟨hq, ?_⟩
  cases hp : s'.phase i <;> simp only [isCommitted, hp, Phase.isCommitted, Bool.false_eq_true] at hc
  case committed admitted =>
    rw [pending_eq_snapshot htargets, ← h.committedRows, ht, hi, Offer.outcome_idle, hp, Offer.outcome,
      pending_eq_snapshot (by rw [hp]; rfl), ← hq.committedRows] at ho
    obtain ⟨ha, hr⟩ := Prod.mk.inj ho
    exact ⟨by rw [ha], hr⟩

-- The calls of a list run one after the other.
inductive Serial (offers : Fin m → Offer) : Database m → List (Fin m) → Database m → Prop
  | nil : Serial offers s₁ [] s₁
  | cons (r : Run offers (Alone offers tx) s₁ s₂) (h : s₂.isCommitted tx) (rest : Serial offers s₂ txs s₃) :
    Serial offers s₁ (tx :: txs) s₃

-- Calls that do not overlap leave the table that the sequence of calls leaves.
theorem Serial.admitAll {txs : List (Fin m)} {table : Leaderboard} (r : Serial offers s txs s') (hd : txs.Nodup)
    (h : s.Quiet) (hi : ∀ i ∈ txs, s.phase i = .idle) (ht : s.committedRows = table.rows) :
    s'.Quiet ∧ s'.committedRows = (table.admitAll <| txs.map offers).rows := by
  induction r generalizing table
  case nil => exact ⟨h, ht⟩
  case cons tx s₁ s₂ txs s₃ r hc _ hr =>
    have ⟨hni, hd⟩ := List.nodup_cons.mp hd
    have ⟨hq, _, ht⟩ := h.tryAdmit (hi tx List.mem_cons_self) ht r hc
    refine hr hd hq (fun j hj => ?_) ht
    rw [phase_run_of_ne r <| ne_of_mem_of_not_mem hj hni]
    exact hi j <| List.mem_cons_of_mem _ hj

-- Calls can always run one after the other.
theorem exists_serial {txs : List (Fin m)} (hd : txs.Nodup) (h : s.Quiet) (hi : ∀ i ∈ txs, s.phase i = .idle) :
    ∃ s', Serial offers s txs s' := by
  induction txs generalizing s
  case nil => exact ⟨s, .nil⟩
  case cons tx txs hr =>
    have ⟨hni, hd⟩ := List.nodup_cons.mp hd
    have hs : s.Settled tx := h.settled <| by rw [hi tx List.mem_cons_self]; rfl
    have ⟨s₁, r, hc⟩ : ∃ s₁, Run offers (Alone offers tx) s s₁ ∧ s₁.isCommitted tx := hs.exists_run
    have hi' (j) (hj : j ∈ txs) : s₁.phase j = .idle := by
      rw [phase_run_of_ne r <| ne_of_mem_of_not_mem hj hni]
      exact hi j <| List.mem_cons_of_mem _ hj
    have ⟨s', rest⟩ := hr hd ((hs.run r).1.quiet hc) hi'
    exact ⟨s', .cons r hc rest⟩

end Database

open Database

-- If the calls of a board run one after the other, then the table ends up as after the sequence of calls.
theorem Leaderboard.serial_refines_admitAll {m : Nat} (offers : Fin m → Offer) (table : Leaderboard) :
    (∃ s, Serial offers (init table.rows) (List.finRange m) s) ∧
      ∀ s, Serial offers (init table.rows) (List.finRange m) s →
        s.committedRows = (table.admitAll <| List.ofFn offers).rows := by
  have hd := List.nodup_finRange m
  refine ⟨exists_serial hd (quiet_init _) fun _ _ => rfl, fun s r => ?_⟩
  rw [List.ofFn_eq_map]
  exact (r.admitAll hd (quiet_init _) (fun _ _ => rfl) (committedRows_init _)).2
