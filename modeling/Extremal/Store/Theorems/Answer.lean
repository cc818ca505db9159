import Extremal.Lib.Sorting
import Extremal.Store.Theorems.Threshold

open Lexicographic Leaderboard

namespace Offer

variable {offer : Offer} {table rest : Leaderboard} {x : LeaderboardEntry} {n capacity : Int32} {scan : Scan}

-- No other row has the score of the offer.
def Distinct (offer : Offer) (table : Leaderboard) : Prop :=
  ∀ e ∈ table.rows.board offer.n, e.cid ≠ offer.cid → e.scoreBytes ≠ offer.scoreBytes

-- The answer of a call tells what the call did: a rank for a row that is new on the board, which is the
-- row's rank among those of the board, or nothing if the table is as before.
structure Answers (offer : Offer) (table : Leaderboard) (answer : Option Int32) (table' : Leaderboard) : Prop where
  admitted : (∃ r, answer = some r) ↔ offer.cid ∉ table.cids offer.n ∧ offer.cid ∈ table'.cids offer.n
  rank     : ∀ r, answer = some r → r.toInt = 1 + table'.rows.betterCount offer.n offer.scoreBytes ∧
    ∀ scan r', (r', offer.cid) ∈ table'.rows.richRanks offer.n scan ↔ r' = r
  refused  : answer = none ↔ ∀ e, e ∈ table'.rows ↔ e ∈ table.rows

theorem Refuses.answers : offer.Answers table none table where
  admitted := by simp
  rank     := nofun
  refused  := by simp

-- A row splits the board into the better rows and the worse ones.
theorem betterCount_eq_length {better worse : List LeaderboardEntry}
    (hp : (better ++ x :: worse).Perm (table.rows.board n)) (hb : ∀ e ∈ better, e.scoreBytes < x.scoreBytes)
    (hw : ∀ e ∈ worse, x.scoreBytes < e.scoreBytes) : table.rows.betterCount n x.scoreBytes = better.length := by
  rw [Rows.betterCount, ← hp.countP_eq, List.countP_append, List.countP_cons,
    List.countP_eq_length.mpr fun e he => by simpa using hb e he,
    List.countP_eq_zero.mpr fun e he => by simpa using (hw e he).le]
  simp

section Unique

variable (hx : x ∈ table.rows.board n) (hu : ∀ e ∈ table.rows.board n, e.scoreBytes = x.scoreBytes → e = x)
include hx hu

theorem split_worstFirst (scan : Scan) : ∃ worse better, table.rows.worstFirst n scan = worse ++ x :: better ∧
    (∀ e ∈ worse, x.scoreBytes < e.scoreBytes) ∧ (∀ e ∈ better, e.scoreBytes < x.scoreBytes) ∧
    better.length = table.rows.betterCount n x.scoreBytes := by
  have hp := table.rows.worstFirst_perm n scan
  have hn : (table.rows.worstFirst n scan).Nodup := by
    refine List.Nodup.of_map (·.cid) ?_
    exact (hp.map _).nodup_iff.mpr <| nodup_cids table n
  have ⟨worse, better, e, hw, hb⟩ := Sorting.exists_split (f := fun e : LeaderboardEntry => OrderDual.toDual e.scoreBytes)
    (table.rows.worstFirst_sorted n scan) hn (hp.mem_iff.mpr hx) fun y hy he => hu y (hp.mem_iff.mp hy) he
  have hs : (better ++ x :: worse).Perm (worse ++ x :: better) :=
    List.perm_middle.trans <| List.perm_append_comm.cons x |>.trans List.perm_middle.symm
  exact ⟨worse, better, e, hw, hb, betterCount_eq_length (hs.trans <| e ▸ hp) hb hw |>.symm⟩

-- A row survives the trim if fewer rows than the capacity have a better score.
theorem mem_trimLeaderboard_iff : x ∈ (table.trimLeaderboard n capacity scan).rows.board n ↔
    table.rows.betterCount n x.scoreBytes < capacity.toInt := by
  have ⟨worse, better, e, hw, hb, hl⟩ := split_worstFirst hx hu scan
  have hc : table.rows.leaderboardCount n = worse.length + 1 + better.length := by
    rw [Rows.leaderboardCount, ← (table.rows.worstFirst_perm n scan).length_eq, e]
    simp; omega
  rw [(table.board_trimLeaderboard n capacity scan).mem_iff, e, ← hl]
  by_cases h : (table.rows.leaderboardCount n - capacity.toInt).toNat ≤ worse.length
  case pos =>
    rw [List.drop_append_of_le_length h]
    exact iff_of_true (by simp) (by omega)
  case neg =>
    refine iff_of_false (fun hm => ?_) (by omega)
    rw [List.drop_append, List.drop_of_length_le (by omega), List.nil_append] at hm
    obtain ⟨k, hk⟩ : ∃ k, (table.rows.leaderboardCount n - capacity.toInt).toNat - worse.length = k + 1 :=
      ⟨(table.rows.leaderboardCount n - capacity.toInt).toNat - worse.length - 1, by omega⟩
    rw [hk, List.drop_succ_cons] at hm
    exact lt_irrefl _ <| hb x <| List.mem_of_mem_drop hm

-- The rank that the leaderboard shows.
theorem mem_richRanks_iff {r : Int32} : (r, x.cid) ∈ table.rows.richRanks n scan ↔
    r = .ofNat (table.rows.betterCount n x.scoreBytes + 1) := by
  let bestFirst := (scan.order <| table.rows.board n).insertionSort (·.scoreBytes ≤ ·.scoreBytes)
  have hp : bestFirst.Perm (table.rows.board n) := (List.perm_insertionSort ..).trans <| scan.perm _
  have hn : bestFirst.Nodup := List.Nodup.of_map (·.cid) <| (hp.map _).nodup_iff.mpr <| nodup_cids table n
  have hs : bestFirst.Pairwise (·.scoreBytes ≤ ·.scoreBytes) := List.pairwise_insertionSort ..
  have ⟨better, worse, e, hb, hw⟩ :=
    Sorting.exists_split hs hn (hp.mem_iff.mpr hx) fun y hy he => hu y (hp.mem_iff.mp hy) he
  have hl : table.rows.betterCount n x.scoreBytes = better.length := betterCount_eq_length (e ▸ hp) hb hw
  rw [hl]
  simp only [Rows.richRanks, List.mem_map, Prod.mk.injEq, Prod.exists, List.mk_mem_zipIdx_iff_le_and_getElem?_sub]
  constructor
  case mp =>
    rintro ⟨y, i, ⟨hi, hg⟩, rfl, hc⟩
    have hy : y ∈ bestFirst := List.mem_of_getElem? hg
    obtain rfl := board_inj (hp.mem_iff.mp hy) hx hc
    have hg' : bestFirst[better.length]? = some y := by rw [e]; simp
    have := List.getElem?_inj (List.getElem?_eq_some_iff.mp hg').1 hn |>.mp (hg'.trans hg.symm)
    rw [show i = better.length + 1 by omega]
  case mpr =>
    rintro rfl
    refine ⟨x, better.length + 1, ⟨by omega, ?_⟩, rfl, rfl⟩
    show bestFirst[better.length]? = some x
    rw [e]
    simp

end Unique

section Admit

variable (hk : offer.cid ∉ table.cids offer.n) (hr : offer.MakesRoom table rest)
include hr

theorem betterCount_rest :
    rest.rows.betterCount offer.n offer.scoreBytes = table.rows.betterCount offer.n offer.scoreBytes := by
  cases hr
  case free | empty     => rfl
  case evict w _ hw hs  => exact betterCount_delete (Rows.worst_mem hw) hs.le

-- A call that makes room for an offer that no row is worse than finds a place on the board.
theorem betterCount_lt (hc : 1 ≤ offer.capacity.toInt)
    (h : ∀ e ∈ table.rows.board offer.n, e.scoreBytes ≤ offer.scoreBytes) :
    table.rows.betterCount offer.n offer.scoreBytes < offer.capacity.toInt := by
  have hb : table.rows.betterCount offer.n offer.scoreBytes ≤ table.rows.leaderboardCount offer.n :=
    List.countP_le_length
  cases hr
  case free hf         => omega
  case empty he        => simp [Rows.leaderboardCount, he] at hb; omega
  case evict w _ hw hs => exact absurd (h w <| Rows.worst_mem hw) hs.not_ge

include hk

-- The row that an admission inserts.
theorem new_mem : offer.entry (offer.newRank rest.rows) ∈ (offer.admitted rest).rows.board offer.n := by
  rw [board_admitted fun hm => hk <| hr.cids_subset hm]
  simp

theorem new_unique (hd : offer.Distinct table) : ∀ e ∈ (offer.admitted rest).rows.board offer.n,
    e.scoreBytes = (offer.entry <| offer.newRank rest.rows).scoreBytes → e = offer.entry (offer.newRank rest.rows) := by
  rw [board_admitted fun hm => hk <| hr.cids_subset hm]
  intro e he hs
  rcases List.mem_append.mp he with he | he
  · have he := hr.sublist.mem he
    exact absurd hs <| hd e he fun hc => hk <| mem_cids.mpr ⟨e, he, hc⟩
  · exact List.mem_singleton.mp he

theorem betterCount_admitted : (offer.admitted rest).rows.betterCount offer.n offer.scoreBytes =
    table.rows.betterCount offer.n offer.scoreBytes := by
  rw [← betterCount_rest hr, Rows.betterCount, board_admitted fun hm => hk <| hr.cids_subset hm, List.countP_append]
  simp [Rows.betterCount, entry]

end Admit

section Trimmed

variable (hk : offer.cid ∉ table.cids offer.n) (hr : offer.MakesRoom table rest) (hd : offer.Distinct table)

-- The table that an admission leaves.
def trimmed (offer : Offer) (rest : Leaderboard) : Leaderboard :=
  (offer.admitted rest).trimLeaderboard offer.n offer.capacity offer.scan

theorem sublist_trimmed : ((offer.trimmed rest).rows.board offer.n).Sublist ((offer.admitted rest).rows.board offer.n) :=
  Rows.board_delete ▸ List.filter_sublist

include hk hr hd

theorem cid_mem_trimmed_iff : offer.cid ∈ (offer.trimmed rest).cids offer.n ↔
    table.rows.betterCount offer.n offer.scoreBytes < offer.capacity.toInt := by
  have hx := new_mem hk hr
  rw [← betterCount_admitted hk hr]
  have ht : offer.entry (offer.newRank rest.rows) ∈ (offer.trimmed rest).rows.board offer.n ↔ _ :=
    mem_trimLeaderboard_iff hx (new_unique hk hr hd)
  refine Iff.trans ?_ ht
  rw [mem_cids]
  constructor
  case mp  => exact fun ⟨e, he, hc⟩ => board_inj (sublist_trimmed.mem he) hx hc ▸ he
  case mpr => exact fun h => ⟨_, h, rfl⟩

theorem answers_of_lt (h : table.rows.betterCount offer.n offer.scoreBytes < offer.capacity.toInt) :
    offer.Answers table (some <| offer.newRank rest.rows) (offer.trimmed rest) := by
  let x := offer.entry (offer.newRank rest.rows)
  have hu := new_unique hk hr hd
  have hm : x ∈ (offer.trimmed rest).rows.board offer.n := by
    refine mem_trimLeaderboard_iff (new_mem hk hr) hu |>.mpr ?_
    rwa [show x.scoreBytes = offer.scoreBytes from rfl, betterCount_admitted hk hr]
  have hb : (offer.trimmed rest).rows.betterCount offer.n offer.scoreBytes =
      table.rows.betterCount offer.n offer.scoreBytes :=
    (betterCount_trimLeaderboard hm).trans <| betterCount_admitted hk hr
  have hn : offer.newRank rest.rows = .ofNat (table.rows.betterCount offer.n offer.scoreBytes + 1) := by
    rw [newRank, betterCount_rest hr]
  refine ⟨?_, fun r e => ?_, ?_⟩
  · exact iff_of_true ⟨_, rfl⟩ ⟨hk, (cid_mem_trimmed_iff hk hr hd).mpr h⟩
  · cases e
    have := offer.capacity.toInt_lt
    refine ⟨?_, fun scan r' => ?_⟩
    · rw [hb, hn, Int32.toInt_ofNat_of_lt (by omega)]
      omega
    · rw [hn, ← hb]
      exact mem_richRanks_iff hm fun e he => hu e <| sublist_trimmed.mem he
  · refine iff_of_false (Option.some_ne_none _) fun h => hk <| mem_cids.mpr ⟨x, ?_, rfl⟩
    exact Rows.mem_board.mpr ⟨(h x).mp (Rows.mem_board.mp hm).1, rfl⟩

end Trimmed

theorem Refuses.known_or_worst (hr : offer.Refuses table) : offer.cid ∈ table.cids offer.n ∨
    ∀ e ∈ table.rows.board offer.n, e.scoreBytes ≤ offer.scoreBytes := by
  cases hr
  case known h        => exact .inl h
  case full w _ hw hs => exact .inr fun e he => (Rows.le_worst hw he).trans hs

-- A call that finds at least as many better rows as the board may hold, and a worse row to evict, trims
-- the row that it has inserted.
theorem tryAdmit_answers_iff (hc : 1 ≤ offer.capacity.toInt) (hd : offer.Distinct table) :
    offer.Answers table (offer.tryAdmit table).1 (offer.tryAdmit table).2 ↔
      offer.cid ∈ table.cids offer.n ∨
      table.rows.betterCount offer.n offer.scoreBytes < offer.capacity.toInt ∨
      ∀ e ∈ table.rows.board offer.n, e.scoreBytes ≤ offer.scoreBytes := by
  rcases tryAdmit_cases offer table with ⟨hr, e⟩ | ⟨rest, hk, _, hr, e⟩ <;> rw [e]
  case inl => exact iff_of_true Refuses.answers <| hr.known_or_worst.imp_right .inr
  case inr =>
    constructor
    case mp =>
      intro h
      exact .inr <| .inl <| (cid_mem_trimmed_iff hk hr hd).mp (h.admitted.mp ⟨_, rfl⟩).2
    case mpr =>
      rintro (h | h | h)
      · exact absurd h hk
      · exact answers_of_lt hk hr hd h
      · exact answers_of_lt hk hr hd <| betterCount_lt hr hc h

-- A board over the capacity of a single row.
def crowded : Leaderboard :=
  empty.admitAll [.ofByte "a" 1 2, .ofByte "c" 3 2]

theorem crowded_answers : let offer := ofByte "d" 0 1
    offer.Answers crowded (offer.tryAdmit crowded).1 (offer.tryAdmit crowded).2 := by
  refine tryAdmit_answers_iff (by decide) ?_ |>.mpr <| .inr <| .inl ?_
  · show ∀ e ∈ crowded.rows.board 5, e.cid ≠ "d" → e.scoreBytes ≠ ⟨[0]⟩
    decide +kernel
  · show (crowded.rows.betterCount 5 ⟨[0]⟩ : Int) < (1 : Int32).toInt
    decide +kernel

-- The call reports rank 2 for a row that it does not leave on the board.
theorem crowded_answers_wrong : let offer := ofByte "b" 2 1
    offer.Distinct crowded ∧ (offer.tryAdmit crowded).1 = some 2 ∧ offer.cid ∉ (offer.tryAdmit crowded).2.cids 5 ∧
    ¬offer.Answers crowded (offer.tryAdmit crowded).1 (offer.tryAdmit crowded).2 := by
  intro offer
  have hd : offer.Distinct crowded := by
    show ∀ e ∈ crowded.rows.board 5, e.cid ≠ "b" → e.scoreBytes ≠ ⟨[2]⟩
    decide +kernel
  have hr : (offer.tryAdmit crowded).1 = some 2 := by decide +kernel
  have hc : offer.cid ∉ (offer.tryAdmit crowded).2.cids 5 := by decide +kernel
  exact ⟨hd, hr, hc, fun h => hc <| h.admitted.mp ⟨_, hr⟩ |>.2⟩

end Offer
