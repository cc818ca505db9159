import Extremal.Store.Theorems.Threshold
import Extremal.Types.Theorems.Hex
import Extremal.Worker.Gate

open Lexicographic Leaderboard

namespace Rows

variable {rows : Rows} {n : Int32} {scan : Scan} {w : LeaderboardEntry} {T : Word UInt8}

theorem isGreatest_worst (h : rows.worst n scan = some w) : IsGreatest (rows.scores n) w.scoreBytes :=
  ⟨⟨w, worst_mem h, rfl⟩, fun _ ⟨_, he, hs⟩ => hs ▸ le_worst h he⟩

theorem exists_worst (h : rows.board n ≠ []) (scan : Scan) : ∃ w, rows.worst n scan = some w := by
  cases hw : rows.worst n scan
  case none   => exact absurd (worst_eq_none_iff.mp hw) h
  case some w => exact ⟨w, rfl⟩

theorem board_ne_nil (h : IsGreatest (rows.scores n) T) : rows.board n ≠ [] := by
  have ⟨⟨e, he, _⟩, _⟩ := h
  exact List.ne_nil_of_mem he

end Rows

namespace Offer

variable {offer : Offer} {table : Leaderboard} {T : Word UInt8}

-- A full board refuses a new graph if and only if its score does not beat the worst one.
theorem tryAdmit_eq_none_iff (hk : offer.cid ∉ table.cids offer.n)
    (hf : offer.capacity.toInt ≤ table.rows.leaderboardCount offer.n)
    (hT : IsGreatest (table.rows.scores offer.n) T) : (offer.tryAdmit table).1 = none ↔ T ≤ offer.scoreBytes := by
  have hworst {w} (hw : table.rows.worst offer.n offer.scan = some w) : T = w.scoreBytes :=
    hT.unique <| Rows.isGreatest_worst hw
  rcases tryAdmit_cases offer table with ⟨hr, h⟩ | ⟨rest, -, -, hr, h⟩ <;> rw [h]
  case inl =>
    refine iff_of_true rfl ?_
    cases hr
    case known hk'      => exact absurd hk' hk
    case full w _ hw hs => exact hworst hw ▸ hs
  case inr =>
    refine iff_of_false nofun <| not_le.mpr ?_
    cases hr
    case free hf'        => omega
    case empty he        => exact absurd he <| Rows.board_ne_nil hT
    case evict w _ hw hs => exact hworst hw ▸ hs

theorem tryAdmit_of_le (hf : offer.capacity.toInt ≤ table.rows.leaderboardCount offer.n)
    (hT : IsGreatest (table.rows.scores offer.n) T) (h : T ≤ offer.scoreBytes) :
    offer.tryAdmit table = (none, table) := by
  rcases tryAdmit_cases offer table with ⟨_, he⟩ | ⟨rest, hk, -, _, he⟩
  case inl => exact he
  case inr =>
    have := (tryAdmit_eq_none_iff hk hf hT).mpr h
    rw [he] at this
    cases this

-- A full board exchanges its worst row for a better one, or stays as it is.
theorem tryAdmit_full
    (hf : table.rows.leaderboardCount offer.n = offer.capacity.toInt) (hT : IsGreatest (table.rows.scores offer.n) T) :
    (offer.tryAdmit table).2.rows.leaderboardCount offer.n = offer.capacity.toInt ∧
    ∃ T' ≤ T, IsGreatest ((offer.tryAdmit table).2.rows.scores offer.n) T' := by
  rcases tryAdmit_cases offer table with ⟨_, h⟩ | ⟨rest, hk, -, hr, h⟩ <;> rw [h]
  case inl => exact ⟨hf, T, le_rfl, hT⟩
  case inr =>
    have hk' : offer.cid ∉ rest.cids offer.n := fun hm => hk <| hr.cids_subset hm
    have hsub := hr.sublist
    have hcount := leaderboardCount_admitted hk'
    cases hr
    case free        => omega
    case empty he    => exact absurd he <| Rows.board_ne_nil hT
    case evict w _ hw hs =>
      have hcw := leaderboardCount_evict hw
      rw [trimLeaderboard_of_le (by omega)]
      have hne := List.ne_nil_of_mem <| board_admitted hk' ▸ List.mem_append_right _ List.mem_cons_self
      have ⟨w', hw'⟩ := Rows.exists_worst hne offer.scan
      refine ⟨show ((offer.admitted _).rows.leaderboardCount offer.n : Int) = _ by omega, _, ?_, Rows.isGreatest_worst hw'⟩
      have hm := board_admitted hk' ▸ Rows.worst_mem hw'
      cases List.mem_append.mp hm
      case inl hm => exact hT.2 ⟨w', hsub.mem hm, rfl⟩
      case inr hm =>
        rw [List.mem_singleton.mp hm]
        exact hs.le.trans <| hT.2 ⟨w, Rows.worst_mem hw, rfl⟩

end Offer

section Run

variable {table : Leaderboard} {n capacity : Int32} {T : Word UInt8}

theorem full_admitAll (offers : List Offer)
    (ho : ∀ o ∈ offers, o.n = n → o.capacity = capacity) (hf : table.rows.leaderboardCount n = capacity.toInt)
    (hT : IsGreatest (table.rows.scores n) T) :
    (table.admitAll offers).rows.leaderboardCount n = capacity.toInt ∧
    ∃ T' ≤ T, IsGreatest ((table.admitAll offers).rows.scores n) T' := by
  induction offers generalizing table T
  case nil => exact ⟨hf, T, le_rfl, hT⟩
  case cons offer offers ih =>
    have ih := @ih (offer.tryAdmit table).2
    have ho' := fun o hm => ho o <| List.mem_cons_of_mem offer hm
    by_cases hn : offer.n = n
    case pos =>
      subst hn
      obtain rfl := ho offer List.mem_cons_self rfl
      have ⟨hf', T', hle, hT'⟩ := Offer.tryAdmit_full hf hT
      have ⟨hf'', T'', hle', hT''⟩ := ih ho' hf' hT'
      exact ⟨hf'', T'', hle'.trans hle, hT''⟩
    case neg =>
      have hb : (offer.tryAdmit table).2.rows.board n = _ := Offer.board_tryAdmit_of_ne (Ne.symm hn)
      refine ih ho' ?_ ?_
      · rwa [Rows.leaderboardCount, hb]
      · rwa [Rows.scores, hb]

end Run

namespace Gate

variable {hex : Hex} {gate : Gate} {rows : Rows} {scan : Scan} {n capacity : Int32} {scoreBytes : Word UInt8}

theorem sync_getThreshold (lawful : hex.Lawful) (gate : Gate) : gate.sync hex (getThreshold hex rows scan capacity n) =
    { leaderboardFull     := rows.leaderboardCount n ≥ capacity.toInt
      thresholdScoreBytes := rows.leaderboardThreshold n scan } := by
  rw [sync]
  cases h : rows.leaderboardThreshold n scan <;> simp [getThreshold, h, lawful.decode_encode]

-- Failed fetches keep what the last successful one has told.
theorem foldl_sync_none (gate : Gate) (k : Nat) : (List.replicate k none).foldl (sync hex) gate = gate := by
  induction k
  case zero      => rfl
  case succ k hi => exact hi

theorem drops_iff {T : Word UInt8} (hf : gate.leaderboardFull) (hT : gate.thresholdScoreBytes = some T) :
    gate.drops scoreBytes ↔ T ≤ scoreBytes := by
  simp [drops, hf, hT]

theorem le_of_drops {T : Word UInt8} (h : gate.drops scoreBytes) (hT : gate.thresholdScoreBytes = some T) :
    T ≤ scoreBytes :=
  (drops_iff (Bool.and_eq_true_iff.mp h).1 hT).mp h

-- A full board stays full and its worst score never gets worse. Hence a discovery that the gate drops
-- for a threshold of an earlier full board is one that the board refuses from then on.
theorem dropped_is_refused {table : Leaderboard} {n capacity : Int32} (hc : 1 ≤ capacity.toInt)
    (hf : table.rows.leaderboardCount n = capacity.toInt) (offers : List Offer)
    (ho : ∀ o ∈ offers, o.n = n → o.capacity = capacity) :
    let later := table.admitAll offers
    later.rows.leaderboardCount n = capacity.toInt ∧
    ∀ T, IsGreatest (table.rows.scores n) T →
      (∃ T' ≤ T, IsGreatest (later.rows.scores n) T') ∧
      ∀ gate : Gate, gate.thresholdScoreBytes = some T →
        ∀ offer : Offer, offer.n = n → offer.capacity = capacity → gate.drops offer.scoreBytes →
          offer.tryAdmit later = (none, later) := by
  have hne : table.rows.board n ≠ [] := by
    intro h
    simp only [Rows.leaderboardCount, h, List.length_nil] at hf
    omega
  obtain ⟨w, hw⟩ := Rows.exists_worst hne .heap
  refine ⟨(full_admitAll offers ho hf <| Rows.isGreatest_worst hw).1, fun T hT => ?_⟩
  obtain ⟨hf', T', hle, hT'⟩ := full_admitAll offers ho hf hT
  refine ⟨⟨T', hle, hT'⟩, fun gate hg offer hn hc' hd => ?_⟩
  subst hn hc'
  exact Offer.tryAdmit_of_le hf'.ge hT' <| hle.trans <| le_of_drops hd hg

-- The threshold is fetched from the board of `a` and kept while `b` takes its place.
theorem stale_threshold_refuses :
    let table := Leaderboard.empty.admitAll [.ofByte "a" 5 1]
    let later := table.admitAll [.ofByte "b" 3 1]
    let fetched := some (getThreshold ReferenceHex.hex table.rows .heap 1 5)
    let gate := (fetched :: List.replicate 2 none).foldl (sync ReferenceHex.hex) .init
    gate.drops ⟨[6]⟩ ∧ (Offer.ofByte "c" 6 1).tryAdmit later = (none, later) := by
  intro table later fetched gate
  have hf : table.rows.leaderboardCount 5 = (1 : Int32).toInt := by decide +kernel
  have hT : IsGreatest (table.rows.scores 5) ⟨[5]⟩ :=
    ⟨(by decide +kernel : ∃ e ∈ table.rows.board 5, e.scoreBytes = ⟨[5]⟩), fun _ ⟨e, he, hs⟩ =>
      hs ▸ (by decide +kernel : ∀ e ∈ table.rows.board 5, e.scoreBytes ≤ ⟨[5]⟩) e he⟩
  have hgate : gate = { leaderboardFull := true, thresholdScoreBytes := some ⟨[5]⟩ } := by
    rw [show gate = (List.replicate 2 none).foldl (sync _) (sync _ .init fetched) from rfl, foldl_sync_none,
      sync_getThreshold ReferenceHex.lawful]
    congr
  have ⟨_, h⟩ := dropped_is_refused (by decide) hf [.ofByte "b" 3 1] (by decide)
  have hd : gate.drops ⟨[6]⟩ := by rw [hgate]; decide
  exact ⟨hd, (h _ hT).2 gate (by rw [hgate]) (.ofByte "c" 6 1) rfl rfl hd⟩

end Gate
