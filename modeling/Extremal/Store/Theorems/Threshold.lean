import Extremal.Store.Theorems.Admission
import Mathlib.Data.Finset.Max

open Lexicographic Leaderboard

-- Meets the row `e` first.
def Scan.first (e : LeaderboardEntry) : Scan where
  order rows := if e ∈ rows then e :: rows.erase e else rows
  perm rows  := by
    split
    case isTrue h => exact (List.perm_cons_erase h).symm
    case isFalse  => exact .refl _

namespace Rows

variable {rows : Rows} {n : Int32} {scan : Scan} {e : LeaderboardEntry}

def scores (rows : Rows) (n : Int32) : Set (Word UInt8) :=
  { s | ∃ e ∈ rows.board n, e.scoreBytes = s }

-- The advertised threshold is the score of the worst row.
def ThresholdIsWorst (rows : Rows) (n : Int32) (scan : Scan) : Prop :=
  (rows.leaderboardThreshold n scan = none ↔ rows.board n = []) ∧
  ∀ T, rows.leaderboardThreshold n scan = some T → IsGreatest (rows.scores n) T

-- A row of the highest stored rank is a worst row.
def HighestIsWorst (board : Rows) : Prop :=
  ∀ e ∈ board, (∀ e' ∈ board, e'.rank ≤ e.rank) → ∀ e' ∈ board, e'.scoreBytes ≤ e.scoreBytes

instance : IsTrans LeaderboardEntry (·.rank ≥ ·.rank) :=
  ⟨fun _ _ _ h h' => Int32.le_trans h' h⟩

instance : @Std.Total LeaderboardEntry (·.rank ≥ ·.rank) :=
  ⟨fun a b => Int32.le_total b.rank a.rank⟩

theorem highest_of_threshold {T : Word UInt8} (h : rows.leaderboardThreshold n scan = some T) :
    ∃ e ∈ rows.board n, e.scoreBytes = T ∧ ∀ e' ∈ rows.board n, e'.rank ≤ e.rank := by
  let sorted := (scan.order <| rows.board n).insertionSort (·.rank ≥ ·.rank)
  have hp : sorted.Perm (rows.board n) := (List.perm_insertionSort ..).trans <| scan.perm _
  have hs : sorted.Pairwise (·.rank ≥ ·.rank) := List.pairwise_insertionSort ..
  have ⟨e, he, hT⟩ := Option.map_eq_some_iff.mp h
  have ⟨rest, hr⟩ := List.head?_eq_some_iff.mp he
  rw [show sorted = e :: rest from hr] at hp hs
  refine ⟨e, hp.mem_iff.mp List.mem_cons_self, hT, fun e' he' => ?_⟩
  rcases List.mem_cons.mp (hp.mem_iff.mpr he') with rfl | he'
  case inl => exact Int32.le_refl _
  case inr => exact List.rel_of_pairwise_cons hs he'

theorem threshold_eq_none : rows.leaderboardThreshold n scan = none ↔ rows.board n = [] := by
  have hp : ((scan.order <| rows.board n).insertionSort (·.rank ≥ ·.rank)).Perm (rows.board n) :=
    (List.perm_insertionSort ..).trans <| scan.perm _
  rw [leaderboardThreshold, Option.map_eq_none_iff, List.head?_eq_none_iff]
  constructor <;> intro h
  case mp  => exact List.nil_perm.mp (h ▸ hp)
  case mpr => exact List.perm_nil.mp (hp.trans <| .of_eq h)

theorem threshold_first (he : e ∈ rows.board n) (h : ∀ e' ∈ rows.board n, e'.rank ≤ e.rank) :
    rows.leaderboardThreshold n (.first e) = some e.scoreBytes := by
  have : (Scan.first e).order (rows.board n) = e :: (rows.board n).erase e := if_pos he
  rw [leaderboardThreshold, this, List.insertionSort_cons_of_forall_rel _ fun e' he' => h e' <| List.mem_of_mem_erase he']
  rfl

theorem thresholdIsWorst_iff : (∀ scan, rows.ThresholdIsWorst n scan) ↔ HighestIsWorst (rows.board n) := by
  constructor <;> intro h
  case mp =>
    intro e he hmax e' he'
    exact (h <| .first e).2 _ (threshold_first he hmax) |>.2 ⟨e', he', rfl⟩
  case mpr =>
    refine fun scan => ⟨threshold_eq_none, fun T hT => ?_⟩
    have ⟨e, he, hs, hmax⟩ := highest_of_threshold hT
    refine ⟨⟨e, he, hs⟩, fun s ⟨e', he', hs'⟩ => ?_⟩
    rw [← hs, ← hs']
    exact h e he hmax e' he'

end Rows

namespace Offer

variable {offer : Offer} {table rest : Leaderboard} {n : Int32} {e : LeaderboardEntry}

-- The rows that the board loses to an offer that it takes: the worst row of a full board, and the surplus if
-- the board has had more rows than the capacity.
def evicted (offer : Offer) (table : Leaderboard) : List String :=
  if table.rows.leaderboardCount offer.n < offer.capacity.toInt then []
  else (table.rows.worst offer.n offer.scan).toList.map (·.cid)

def surplus (offer : Offer) (table : Leaderboard) : List String :=
  (offer.admitted <| table.delete offer.n <| offer.evicted table).rows.excess offer.n offer.capacity offer.scan

-- The rows of the board that stay, and whether the new row stays.
def kept (offer : Offer) (table : Leaderboard) : Rows :=
  (table.rows.board offer.n).filter fun e => e.cid ∉ offer.evicted table ∧ e.cid ∉ offer.surplus table

def Stays (offer : Offer) (table : Leaderboard) : Prop :=
  offer.cid ∉ offer.surplus table

-- The offer is refused, no better than the rows that stay, or better than a worst row whose stored rank is
-- above the rank of the offer and above the stored ranks of all better rows.
def KeepsThreshold (offer : Offer) (table : Leaderboard) : Prop :=
  offer.Refuses table ∨ offer.kept table = [] ∨
  (offer.Stays table ∧ ∀ e ∈ offer.kept table, e.scoreBytes ≤ offer.scoreBytes) ∨
  ∃ w ∈ offer.kept table,
    (offer.Stays table → table.rows.betterCount offer.n offer.scoreBytes + 1 < w.rank.toInt) ∧
    ∀ e ∈ offer.kept table, e.scoreBytes ≤ w.scoreBytes ∧ (e.scoreBytes < w.scoreBytes → e.rank < w.rank)

-- The stored ranks lag behind the current ones.
structure Ranked (table : Leaderboard) (n : Int32) : Prop where
  rank_le  : ∀ e ∈ table.rows.board n, e.rank.toInt ≤ table.rows.betterCount n e.scoreBytes + 1
  count_lt : table.rows.leaderboardCount n < 2 ^ 31

theorem Ranked.of_board_eq {table' : Leaderboard} (hr : Ranked table n)
    (h : table'.rows.board n = table.rows.board n) : Ranked table' n where
  rank_le  := by simpa only [h, Rows.betterCount] using hr.rank_le
  count_lt := by simpa only [h, Rows.leaderboardCount] using hr.count_lt

theorem toInt_newRank (h : rest.rows.leaderboardCount offer.n + 1 < 2 ^ 31) :
    (offer.newRank rest.rows).toInt = rest.rows.betterCount offer.n offer.scoreBytes + 1 := by
  have : rest.rows.betterCount offer.n offer.scoreBytes ≤ rest.rows.leaderboardCount offer.n := List.countP_le_length
  rw [newRank, Int32.toInt_ofNat_of_lt (by omega)]
  rfl

theorem count_makesRoom (hr : offer.MakesRoom table rest) (h : table.rows.leaderboardCount offer.n < 2 ^ 31) :
    rest.rows.leaderboardCount offer.n + 1 < 2 ^ 31 := by
  have := offer.capacity.toInt_lt
  cases hr
  case free hf         => omega
  case empty he        => simp [Rows.leaderboardCount, he]
  case evict w _ hw hs => have := leaderboardCount_evict hw; omega

-- A row that is no better than `s` does not count among those that are.
theorem betterCount_delete {w : LeaderboardEntry} {s : Word UInt8} (hw : w ∈ table.rows.board n) (hs : s ≤ w.scoreBytes) :
    (table.delete n [w.cid]).rows.betterCount n s = table.rows.betterCount n s := by
  rw [Rows.betterCount, Leaderboard.delete, Rows.board_delete, List.countP_filter]
  refine List.countP_congr fun e' he' => ?_
  simp only [Bool.and_eq_true, decide_eq_true_eq, List.mem_singleton, and_iff_left_iff_imp]
  intro hlt hc
  rw [board_inj he' hw hc] at hlt
  exact absurd hlt hs.not_gt

-- Making room drops no row that is better than another one.
theorem betterCount_makesRoom (hr : offer.MakesRoom table rest) (he : e ∈ table.rows.board offer.n) :
    rest.rows.betterCount offer.n e.scoreBytes = table.rows.betterCount offer.n e.scoreBytes := by
  cases hr
  case free | empty   => rfl
  case evict w _ hw _ => exact betterCount_delete (Rows.worst_mem hw) (Rows.le_worst hw he)

theorem Ranked.makesRoom (h : Ranked table offer.n) (hr : offer.MakesRoom table rest) : Ranked rest offer.n where
  rank_le e he := by
    have he := hr.sublist.mem he
    rw [betterCount_makesRoom hr he]
    exact h.rank_le e he
  count_lt     := by have := count_makesRoom hr h.count_lt; omega

-- A row that is better than the offer has a smaller stored rank.
theorem Ranked.rank_lt (h : Ranked rest offer.n) (hc : rest.rows.leaderboardCount offer.n + 1 < 2 ^ 31)
    (he : e ∈ rest.rows.board offer.n) (hlt : e.scoreBytes < offer.scoreBytes) :
    e.rank < offer.newRank rest.rows := by
  have hle := h.rank_le e he
  have hbetter : rest.rows.betterCount offer.n e.scoreBytes + 1 ≤ rest.rows.betterCount offer.n offer.scoreBytes := by
    have hp := List.perm_cons_erase he
    rw [Rows.betterCount, Rows.betterCount, hp.countP_eq, hp.countP_eq]
    rw [List.countP_cons_of_neg (by simp), List.countP_cons_of_pos (by simpa)]
    refine Nat.succ_le_succ <| List.countP_mono_left fun e' _ h => ?_
    exact decide_eq_true <| (of_decide_eq_true h).trans hlt
  rw [Int32.lt_iff_toInt_lt, toInt_newRank hc]
  omega

theorem Ranked.admitted (h : Ranked rest offer.n) (hc : rest.rows.leaderboardCount offer.n + 1 < 2 ^ 31)
    (hn : offer.cid ∉ rest.cids offer.n) : Ranked (offer.admitted rest) offer.n where
  rank_le e he := by
    rw [board_admitted hn] at he
    rw [Rows.betterCount, board_admitted hn, List.countP_append]
    cases List.mem_append.mp he
    case inl he =>
      have := h.rank_le e he
      rw [Rows.betterCount] at this
      omega
    case inr he =>
      rw [List.mem_singleton.mp he]
      exact (toInt_newRank hc).le.trans <| Int.add_le_add_right (Int.ofNat_le.mpr <| Nat.le_add_right ..) 1
  count_lt     := by
    rw [leaderboardCount_admitted hn]
    exact hc

-- Trimming drops no row that is better than a row that stays.
theorem betterCount_trimLeaderboard {capacity : Int32} {scan : Scan}
    (he : e ∈ (table.trimLeaderboard n capacity scan).rows.board n) :
    (table.trimLeaderboard n capacity scan).rows.betterCount n e.scoreBytes = table.rows.betterCount n e.scoreBytes := by
  let k := (table.rows.leaderboardCount n - capacity.toInt).toNat
  have hp := table.board_trimLeaderboard n capacity scan
  have hs := table.rows.worstFirst_sorted n scan
  rw [← List.take_append_drop k (table.rows.worstFirst n scan)] at hs
  have hz : ((table.rows.worstFirst n scan).take k).countP (·.scoreBytes < e.scoreBytes) = 0 :=
    List.countP_eq_zero.mpr fun e' he' => by
      have := (List.pairwise_append.mp hs).2.2 e' he' e (hp.mem_iff.mp he)
      simpa using this
  rw [Rows.betterCount, Rows.betterCount, hp.countP_eq, ← (table.rows.worstFirst_perm n scan).countP_eq]
  conv_rhs => rw [← List.take_append_drop k (table.rows.worstFirst n scan), List.countP_append, hz, zero_add]

theorem Ranked.trimLeaderboard (h : Ranked table n) (capacity : Int32) (scan : Scan) :
    Ranked (table.trimLeaderboard n capacity scan) n := by
  have hsub : ((table.trimLeaderboard n capacity scan).rows.board n).Sublist (table.rows.board n) :=
    Rows.board_delete ▸ List.filter_sublist
  refine ⟨fun e he => ?_, hsub.length_le.trans_lt h.count_lt⟩
  rw [betterCount_trimLeaderboard he]
  exact h.rank_le e <| hsub.mem he

theorem Ranked.tryAdmit (h : Ranked table n) : Ranked (offer.tryAdmit table).2 n := by
  by_cases hn : n = offer.n
  case neg => exact h.of_board_eq <| board_tryAdmit_of_ne hn
  case pos =>
    subst hn
    rcases tryAdmit_cases offer table with ⟨_, he⟩ | ⟨rest, hk, _, hr, he⟩ <;> rw [he]
    case inl => exact h
    case inr =>
      have hk' : offer.cid ∉ rest.cids offer.n := fun hm => hk <| hr.cids_subset hm
      exact h.makesRoom hr |>.admitted (count_makesRoom hr h.count_lt) hk' |>.trimLeaderboard _ _

end Offer

theorem Rows.highestIsWorst_iff_exists {board : Rows} : HighestIsWorst board ↔
    board = [] ∨ ∃ w ∈ board, ∀ e ∈ board, e.scoreBytes ≤ w.scoreBytes ∧ (e.scoreBytes < w.scoreBytes → e.rank < w.rank) := by
  constructor
  case mp =>
    intro h
    by_cases hb : board = []
    case pos => exact .inl hb
    case neg =>
      have ⟨w, hw, hmax⟩ := board.toFinset.exists_max_image (·.rank.toInt) (List.toFinset_nonempty_iff board |>.mpr hb)
      simp only [List.mem_toFinset] at hw hmax
      have hworst := h w hw fun e he => Int32.le_iff_toInt_le.mpr <| hmax e he
      refine .inr ⟨w, hw, fun e he => ⟨hworst e he, fun hlt => ?_⟩⟩
      refine Int32.lt_iff_toInt_lt.mpr <| lt_of_le_of_ne (hmax e he) fun heq => hlt.not_ge ?_
      exact h e he (fun e' he' => Int32.le_iff_toInt_le.mpr <| heq ▸ hmax e' he') w hw
  case mpr =>
    rintro (rfl | ⟨w, hw, h⟩)
    case inl => simp [HighestIsWorst]
    case inr =>
      intro e he hmax e' he'
      refine (h e' he').1.trans <| not_lt.mp fun hlt => ?_
      exact Int32.not_le.mpr ((h e he).2 hlt) (hmax w hw)

theorem Rows.highestIsWorst_concat_iff {left : Rows} {new : LeaderboardEntry}
    (hnew : ∀ e ∈ left, e.scoreBytes < new.scoreBytes → e.rank < new.rank) : HighestIsWorst (left ++ [new]) ↔
    (∀ e ∈ left, e.scoreBytes ≤ new.scoreBytes) ∨
    ∃ w ∈ left, new.rank < w.rank ∧
      ∀ e ∈ left, e.scoreBytes ≤ w.scoreBytes ∧ (e.scoreBytes < w.scoreBytes → e.rank < w.rank) := by
  rw [highestIsWorst_iff_exists, or_iff_right (by simp)]
  constructor
  case mp =>
    intro ⟨w, hw, h⟩
    cases List.mem_append.mp hw
    case inl hw =>
      have ⟨hle, hlt⟩ := h new <| by simp
      cases hle.lt_or_eq
      case inl hs => exact .inr ⟨w, hw, hlt hs, fun e he => h e <| List.mem_append_left _ he⟩
      case inr hs => exact .inl fun e he => hs ▸ (h e <| List.mem_append_left _ he).1
    case inr hw =>
      rw [List.mem_singleton.mp hw] at h
      exact .inl fun e he => (h e <| List.mem_append_left _ he).1
  case mpr =>
    rintro (h | ⟨w, hw, hr, h⟩)
    case inl =>
      refine ⟨new, by simp, fun e he => ?_⟩
      cases List.mem_append.mp he
      case inl he => exact ⟨h e he, hnew e he⟩
      case inr he =>
        rw [List.mem_singleton.mp he]
        exact ⟨le_rfl, fun hlt => absurd hlt <| lt_irrefl _⟩
    case inr =>
      refine ⟨w, List.mem_append_left _ hw, fun e he => ?_⟩
      cases List.mem_append.mp he
      case inl he => exact h e he
      case inr he =>
        rw [List.mem_singleton.mp he]
        refine ⟨not_lt.mp fun hlt => ?_, fun _ => hr⟩
        exact Int32.not_le.mpr (hnew w hw hlt) (Int32.le_of_lt hr)

namespace Offer

variable {offer : Offer} {table rest : Leaderboard} {n : Int32}

theorem MakesRoom.eq_delete (h : offer.MakesRoom table rest) : rest = table.delete offer.n (offer.evicted table) := by
  cases h
  case free h         => rw [evicted, if_pos h, delete_nil]
  case empty h        => simp [evicted, Rows.worst_eq_none_iff.mpr h, delete_nil]
  case evict w h hw _ =>
    rw [evicted, if_neg (by omega), hw]
    rfl

theorem MakesRoom.not_refuses (h : offer.MakesRoom table rest) (hk : offer.cid ∉ table.cids offer.n) :
    ¬offer.Refuses table := by
  intro hr
  cases hr
  case known hk' => exact hk hk'
  case full w hc hw hs =>
    cases h
    case free h         => omega
    case empty h        => cases (Rows.worst_eq_none_iff.mpr h).symm.trans hw
    case evict hw' hs' =>
      cases hw.symm.trans hw'
      exact absurd hs hs'.not_ge

-- A board that fits the capacity loses nothing but its worst row.
theorem surplus_eq_nil (hk : offer.cid ∉ table.cids offer.n) (hr : offer.MakesRoom table rest)
    (hc : 0 < offer.capacity.toInt) (hl : table.rows.leaderboardCount offer.n ≤ offer.capacity.toInt) :
    offer.surplus table = [] := by
  have hk' : offer.cid ∉ rest.cids offer.n := fun hm => hk <| hr.cids_subset hm
  refine Rows.excess_eq_nil ?_
  rw [← hr.eq_delete, leaderboardCount_admitted hk']
  cases hr
  case free h       => omega
  case empty h      => simp [Rows.leaderboardCount, h]; omega
  case evict hw hs  => have := leaderboardCount_evict hw; omega

theorem board_trimmed (hn : offer.cid ∉ rest.cids offer.n) (hr : offer.MakesRoom table rest)
    [Decidable (offer.Stays table)] :
    ((offer.admitted rest).trimLeaderboard offer.n offer.capacity offer.scan).rows.board offer.n =
      offer.kept table ++ if offer.Stays table then [offer.entry <| offer.newRank rest.rows] else [] := by
  have ht : (offer.admitted rest).rows.excess offer.n offer.capacity offer.scan = offer.surplus table := by
    rw [surplus, ← hr.eq_delete]
  rw [Leaderboard.trimLeaderboard, Leaderboard.delete, Rows.board_delete, board_admitted hn, List.filter_append, ht]
  congr 1
  · rw [hr.eq_delete, Leaderboard.delete, Rows.board_delete, List.filter_filter, kept]
    exact List.filter_congr fun e _ => by simp [Bool.and_comm]
  · split
    case isTrue h  => exact List.filter_cons_of_pos (decide_eq_true h)
    case isFalse h => exact List.filter_cons_of_neg (mt of_decide_eq_true h)

theorem kept_subset (hr : offer.MakesRoom table rest) : offer.kept table ⊆ rest.rows.board offer.n := by
  intro e he
  have ⟨he, hn⟩ := List.mem_filter.mp he
  rw [hr.eq_delete, Leaderboard.delete, Rows.board_delete]
  exact List.mem_filter.mpr ⟨he, decide_eq_true (of_decide_eq_true hn).1⟩

-- On a board that fits the capacity the new row stays, together with all rows but the one that made room.
theorem keepsThreshold_iff_of_le (hk : offer.cid ∉ table.cids offer.n) (hr : offer.MakesRoom table rest)
    (hc : 0 < offer.capacity.toInt) (hl : table.rows.leaderboardCount offer.n ≤ offer.capacity.toInt) :
    offer.KeepsThreshold table ↔
      (∀ e ∈ rest.rows.board offer.n, e.scoreBytes ≤ offer.scoreBytes) ∨
      ∃ w ∈ rest.rows.board offer.n, table.rows.betterCount offer.n offer.scoreBytes + 1 < w.rank.toInt ∧
        ∀ e ∈ rest.rows.board offer.n,
          e.scoreBytes ≤ w.scoreBytes ∧ (e.scoreBytes < w.scoreBytes → e.rank < w.rank) := by
  have hs : offer.surplus table = [] := surplus_eq_nil hk hr hc hl
  have hkept : offer.kept table = rest.rows.board offer.n := by
    rw [hr.eq_delete, Leaderboard.delete, Rows.board_delete, kept, hs]
    simp
  have hstays : offer.Stays table := by simp [Stays, hs]
  rw [KeepsThreshold, or_iff_right <| hr.not_refuses hk, hkept]
  simp only [hstays, true_and, forall_const]
  exact or_iff_right_of_imp fun h => .inl <| by simp [h]

theorem newRank_lt_iff {w : LeaderboardEntry} (hr : offer.MakesRoom table rest)
    (hc : table.rows.leaderboardCount offer.n < 2 ^ 31) :
    offer.newRank rest.rows < w.rank ↔ table.rows.betterCount offer.n offer.scoreBytes + 1 < w.rank.toInt := by
  have hb : rest.rows.betterCount offer.n offer.scoreBytes = table.rows.betterCount offer.n offer.scoreBytes := by
    cases hr
    case free | empty    => rfl
    case evict _ _ hw hs => exact betterCount_delete (Rows.worst_mem hw) hs.le
  rw [Int32.lt_iff_toInt_lt, toInt_newRank <| count_makesRoom hr hc, hb]

-- What a call does to the order of the stored ranks is decided by the state before it.
theorem highestIsWorst_tryAdmit (h : Ranked table offer.n) (hw : Rows.HighestIsWorst (table.rows.board offer.n)) :
    Rows.HighestIsWorst ((offer.tryAdmit table).2.rows.board offer.n) ↔ offer.KeepsThreshold table := by
  classical
  rcases tryAdmit_cases offer table with ⟨hr, he⟩ | ⟨rest, hk, _, hr, he⟩ <;> rw [he]
  case inl => exact iff_of_true hw <| .inl hr
  case inr =>
    have hk' : offer.cid ∉ rest.cids offer.n := fun hm => hk <| hr.cids_subset hm
    have hnew (e) (he : e ∈ offer.kept table) (hlt : e.scoreBytes < offer.scoreBytes) :
        e.rank < offer.newRank rest.rows :=
      (h.makesRoom hr).rank_lt (count_makesRoom hr h.count_lt) (kept_subset hr he) hlt
    rw [KeepsThreshold, or_iff_right <| hr.not_refuses hk, board_trimmed hk' hr]
    simp only [← newRank_lt_iff hr h.count_lt]
    by_cases hs : offer.Stays table
    case pos =>
      rw [if_pos hs, Rows.highestIsWorst_concat_iff hnew]
      refine ⟨fun h => .inr <| h.imp (⟨hs, ·⟩) fun ⟨w, hw, hr, hle⟩ => ⟨w, hw, fun _ => hr, hle⟩, ?_⟩
      rintro (hl | ⟨_, hle⟩ | ⟨w, hw, hr, hle⟩)
      case inl     => exact .inl <| by simp [hl]
      case inr.inl => exact .inl hle
      case inr.inr => exact .inr ⟨w, hw, hr hs, hle⟩
    case neg =>
      rw [if_neg hs, List.append_nil, Rows.highestIsWorst_iff_exists]
      refine or_congr_right ⟨fun ⟨w, hw, hle⟩ => .inr ⟨w, hw, (absurd · hs), hle⟩, ?_⟩
      rintro (⟨hs', _⟩ | ⟨w, hw, _, hle⟩)
      case inl => exact absurd hs' hs
      case inr => exact ⟨w, hw, hle⟩

end Offer

section Run

variable {table : Leaderboard} {n : Int32}

theorem Leaderboard.admitAll_concat (offers : List Offer) (offer : Offer) :
    table.admitAll (offers ++ [offer]) = (offer.tryAdmit <| table.admitAll offers).2 := by
  simp [admitAll]

theorem Offer.Ranked.admitAll (h : Ranked table n) (offers : List Offer) : Ranked (table.admitAll offers) n := by
  induction offers generalizing table
  case nil                => exact h
  case cons offer rest hi => exact hi h.tryAdmit

theorem Offer.highestIsWorst_admitAll (h : Ranked table n) (hw : Rows.HighestIsWorst (table.rows.board n))
    (offers : List Offer) :
    (∀ done, done <+: offers → Rows.HighestIsWorst ((table.admitAll done).rows.board n)) ↔
    ∀ done offer, done ++ [offer] <+: offers → offer.n = n → offer.KeepsThreshold (table.admitAll done) := by
  induction offers using List.reverseRecOn
  case nil => simp [admitAll, hw]
  case append_singleton offers offer ih =>
    simp only [List.prefix_concat_iff, or_imp, forall_and, forall_eq, ih]
    refine and_congr_left fun hk => ?_
    have hlast := ih.mpr hk offers (List.prefix_refl _)
    have hr : Ranked (table.admitAll offers) n := h.admitAll offers
    rw [admitAll_concat]
    by_cases hn : offer.n = n
    case pos =>
      subst hn
      rw [highestIsWorst_tryAdmit hr hlast]
      simp
    case neg =>
      rw [board_tryAdmit_of_ne (Ne.symm hn)]
      simp [hlast, hn]

end Run

-- In a run from an empty board the advertised threshold is the score of the worst row in every state
-- reached, whichever row the database meets first, if and only if no call disturbs the order of the
-- stored ranks.
theorem Rows.thresholdIsWorst_admitAll_iff {table : Leaderboard} {n : Int32} (hempty : table.rows.board n = [])
    (offers : List Offer) :
    (∀ done, done <+: offers → ∀ scan, (table.admitAll done).rows.ThresholdIsWorst n scan) ↔
    ∀ done offer, done ++ [offer] <+: offers → offer.n = n → offer.KeepsThreshold (table.admitAll done) := by
  have hr : Offer.Ranked table n := ⟨by simp [hempty], by simp [leaderboardCount, hempty]⟩
  rw [← Offer.highestIsWorst_admitAll hr (by simp [HighestIsWorst, hempty])]
  simp only [thresholdIsWorst_iff]

-- The graph with the worst score is admitted first and keeps the rank 1.
def worstFirstOffers : List Offer :=
  [.ofByte "a" 5 3, .ofByte "b" 3 3, .ofByte "c" 4 3]

theorem stale_worst_rank :
    let rows := (Leaderboard.empty.admitAll worstFirstOffers).rows
    rows.leaderboardThreshold 5 .heap = some ⟨[4]⟩ ∧ IsGreatest (rows.scores 5) ⟨[5]⟩ := by
  have hmem : ∃ e ∈ (Leaderboard.empty.admitAll worstFirstOffers).rows.board 5, e.scoreBytes = ⟨[5]⟩ := by
    decide +kernel
  have hle : ∀ e ∈ (Leaderboard.empty.admitAll worstFirstOffers).rows.board 5, e.scoreBytes ≤ ⟨[5]⟩ := by
    decide +kernel
  exact ⟨by decide +kernel, hmem, fun _ ⟨e, he, hs⟩ => hs ▸ hle e he⟩

theorem Rows.threshold_below_worst :
    let rows := (Leaderboard.empty.admitAll worstFirstOffers).rows
    rows.leaderboardThreshold 5 .heap = some ⟨[4]⟩ ∧ IsGreatest (rows.scores 5) ⟨[5]⟩ ∧
    ¬rows.ThresholdIsWorst 5 .heap := by
  refine ⟨stale_worst_rank.1, stale_worst_rank.2, fun h => ?_⟩
  have hne : (⟨[4]⟩ : Word UInt8) ≠ ⟨[5]⟩ := by decide
  exact hne <| (h.2 _ stale_worst_rank.1).unique stale_worst_rank.2

theorem Rows.worstFirstOffers_disturb :
    ¬∀ done offer, done ++ [offer] <+: worstFirstOffers → offer.n = 5 →
      offer.KeepsThreshold (Leaderboard.empty.admitAll done) := by
  intro h
  have hne : (⟨[4]⟩ : Word UInt8) ≠ ⟨[5]⟩ := by decide
  have h := (thresholdIsWorst_admitAll_iff rfl worstFirstOffers).mpr h _ (List.prefix_refl _) .heap
  exact hne <| (h.2 _ stale_worst_rank.1).unique stale_worst_rank.2
