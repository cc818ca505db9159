import Extremal.Store.Leaderboard
import Mathlib.Data.Finset.Card

open Lexicographic

namespace Rows

variable {rows : Rows} {n n' capacity : Int32} {scan : Scan} {e w : LeaderboardEntry} {cid : String}
  {cids : List String}

@[simp]
theorem mem_board : e ∈ rows.board n ↔ e ∈ rows ∧ e.n = n := by
  simp [board]

theorem board_append (rows' : Rows) : Rows.board (rows ++ rows') n = rows.board n ++ Rows.board rows' n :=
  List.filter_append ..

theorem isSome_existing : (rows.existing n cid).isSome ↔ ∃ e ∈ rows.board n, e.cid = cid := by
  simp [existing, List.find?_isSome]

theorem worstFirst_perm (rows : Rows) (n : Int32) (scan : Scan) : (rows.worstFirst n scan).Perm (rows.board n) :=
  (List.perm_insertionSort ..).trans <| scan.perm _

instance : IsTrans LeaderboardEntry (·.scoreBytes ≥ ·.scoreBytes) :=
  ⟨fun _ _ _ h h' => le_trans h' h⟩

instance : @Std.Total LeaderboardEntry (·.scoreBytes ≥ ·.scoreBytes) :=
  ⟨fun a b => le_total b.scoreBytes a.scoreBytes⟩

theorem worstFirst_sorted (rows : Rows) (n : Int32) (scan : Scan) :
    (rows.worstFirst n scan).Pairwise (·.scoreBytes ≥ ·.scoreBytes) :=
  List.pairwise_insertionSort ..

theorem worst_eq_none_iff : rows.worst n scan = none ↔ rows.board n = [] := by
  have h := worstFirst_perm rows n scan
  rw [worst, List.head?_eq_none_iff]
  constructor <;> intro he
  case mp  => exact List.nil_perm.mp <| he ▸ h
  case mpr => exact List.perm_nil.mp <| he ▸ h

theorem worst_mem (h : rows.worst n scan = some w) : w ∈ rows.board n :=
  (worstFirst_perm rows n scan).mem_iff.mp <| List.mem_of_head? h

theorem le_worst (h : rows.worst n scan = some w) (he : e ∈ rows.board n) : e.scoreBytes ≤ w.scoreBytes := by
  have he := (worstFirst_perm rows n scan).mem_iff.mpr he
  have hs := worstFirst_sorted rows n scan
  have ⟨rest, hr⟩ := List.head?_eq_some_iff.mp h
  rw [hr] at he hs
  rcases List.mem_cons.mp he with rfl | he
  case inl => exact le_rfl
  case inr => exact List.rel_of_pairwise_cons hs he

theorem delete_nil : rows.delete n [] = rows := by
  simp [delete]

theorem board_delete : Rows.board (rows.delete n cids) n = (rows.board n).filter (·.cid ∉ cids) := by
  simp only [board, delete, List.filter_filter]
  refine List.filter_congr fun e _ => ?_
  grind

theorem board_delete_of_ne (h : n' ≠ n) : Rows.board (rows.delete n cids) n' = rows.board n' := by
  simp only [board, delete, List.filter_filter]
  refine List.filter_congr fun e _ => ?_
  grind

theorem board_insertNew_of_ne (h : n' ≠ e.n) : Rows.board (rows.insertNew e) n' = rows.board n' := by
  rw [insertNew]
  split
  case isTrue  => rfl
  case isFalse => rw [board_append]; simp [board, h.symm]

theorem board_insertNew (h : ∀ e' ∈ rows.board e.n, e'.cid ≠ e.cid) :
    Rows.board (rows.insertNew e) e.n = rows.board e.n ++ [e] := by
  rw [insertNew, if_neg, board_append]
  case hnc =>
    intro h'
    have ⟨e', hm, he⟩ := List.any_eq_true.mp h'
    have he := of_decide_eq_true he
    exact h e' (mem_board.mpr ⟨hm, he.1⟩) he.2
  simp [board]

theorem excess_eq_nil (h : rows.leaderboardCount n ≤ capacity.toInt) : rows.excess n capacity scan = [] := by
  rw [excess, Int.toNat_of_nonpos (by omega)]
  rfl

theorem filter_take_eq_nil (k : Nat) (l : Rows) : (l.take k).filter (·.cid ∉ (l.take k).map (·.cid)) = [] :=
  List.filter_eq_nil_iff.mpr fun e he => by
    have : e.cid ∈ (l.take k).map (·.cid) := List.mem_map_of_mem he
    simpa using this

-- Deleting the excess leaves no more rows than the capacity.
theorem length_filter_excess_le (rows : Rows) (n : Int32) (scan : Scan) (hc : 0 ≤ capacity.toInt) :
    ((rows.board n).filter (·.cid ∉ rows.excess n capacity scan)).length ≤ capacity.toInt := by
  have hp := rows.worstFirst_perm n scan
  have hl : (rows.worstFirst n scan).length = rows.leaderboardCount n := hp.length_eq
  rw [(hp.symm.filter _).length_eq, excess]
  generalize hk : (rows.leaderboardCount n - capacity.toInt).toNat = k
  generalize rows.worstFirst n scan = l at hl
  have := List.length_filter_le (·.cid ∉ (l.take k).map (·.cid)) (l.drop k)
  conv_lhs => rw [← List.take_append_drop k l, List.filter_append, List.take_append_drop, filter_take_eq_nil]
  rw [List.length_drop, hl] at this
  rw [List.nil_append]
  omega

end Rows

namespace Leaderboard

variable {table : Leaderboard} {n n' capacity : Int32} {scan : Scan} {e w : LeaderboardEntry}

def cids (table : Leaderboard) (n : Int32) : Finset String :=
  (table.rows.board n).map (·.cid) |>.toFinset

theorem mem_cids {cid : String} : cid ∈ table.cids n ↔ ∃ e ∈ table.rows.board n, e.cid = cid := by
  simp [cids]

theorem cids_congr {table' : Leaderboard} (h : table.rows.board n = table'.rows.board n) :
    table.cids n = table'.cids n := by
  rw [cids, cids, h]

theorem nodup_cids (table : Leaderboard) (n : Int32) : ((table.rows.board n).map (·.cid)).Nodup := by
  have h : ((table.rows.board n).map fun e => (e.n, e.cid)).Nodup :=
    table.primaryKey.sublist <| List.filter_sublist.map _
  refine List.Nodup.of_map (fun cid => (n, cid)) ?_
  rw [List.map_map]
  refine (List.map_congr_left fun e he => ?_) ▸ h
  simp [(Rows.mem_board.mp he).2]

theorem card_cids (table : Leaderboard) (n : Int32) : (table.cids n).card = table.rows.leaderboardCount n := by
  rw [cids, List.toFinset_card_of_nodup (nodup_cids table n), List.length_map, Rows.leaderboardCount]

theorem board_inj (he : e ∈ table.rows.board n) (hw : w ∈ table.rows.board n) (h : e.cid = w.cid) : e = w :=
  List.inj_on_of_nodup_map (nodup_cids table n) he hw h

theorem cids_delete (cids : List String) : (table.delete n cids).cids n = table.cids n \ cids.toFinset := by
  ext cid
  simp only [mem_cids, Finset.mem_sdiff, List.mem_toFinset, delete, Rows.board_delete, List.mem_filter,
    decide_eq_true_eq]
  grind

theorem cids_insertNew (h : e.cid ∉ table.cids e.n) :
    (table.insertNew e).cids e.n = insert e.cid (table.cids e.n) := by
  have h : ∀ e' ∈ table.rows.board e.n, e'.cid ≠ e.cid := fun e' he' hc => h <| mem_cids.mpr ⟨e', he', hc⟩
  ext cid
  simp only [mem_cids, Finset.mem_insert, insertNew, Rows.board_insertNew h, List.mem_append,
    List.mem_singleton]
  grind

theorem delete_nil : table.delete n [] = table := by
  simp [delete, Rows.delete_nil]

theorem trimLeaderboard_of_le (h : table.rows.leaderboardCount n ≤ capacity.toInt) :
    table.trimLeaderboard n capacity scan = table := by
  rw [trimLeaderboard, Rows.excess_eq_nil h, delete_nil]

-- Trimming keeps the rows from the capacity on in the order of `worstFirst`.
theorem board_trimLeaderboard (table : Leaderboard) (n capacity : Int32) (scan : Scan) :
    ((table.trimLeaderboard n capacity scan).rows.board n).Perm <|
      (table.rows.worstFirst n scan).drop (table.rows.leaderboardCount n - capacity.toInt).toNat := by
  let k := (table.rows.leaderboardCount n - capacity.toInt).toNat
  have hp := table.rows.worstFirst_perm n scan
  have hn : ((table.rows.worstFirst n scan).map (·.cid)).Nodup := (hp.map _).nodup_iff.mpr <| nodup_cids table n
  rw [trimLeaderboard, delete, Rows.board_delete]
  refine (hp.symm.filter _).trans ?_
  rw [← List.take_append_drop k (table.rows.worstFirst n scan)] at hn ⊢
  rw [List.map_append] at hn
  rw [List.filter_append, Rows.excess]
  have hdrop : ((table.rows.worstFirst n scan).drop k).filter
      (·.cid ∉ ((table.rows.worstFirst n scan).take k).map (·.cid)) = (table.rows.worstFirst n scan).drop k :=
    List.filter_eq_self.mpr fun e he => by
      have := List.disjoint_of_nodup_append hn
      exact decide_eq_true fun h => this h <| List.mem_map_of_mem he
  rw [Rows.filter_take_eq_nil, hdrop, List.take_append_drop]
  simp [k]

end Leaderboard

namespace Offer

open Leaderboard

variable {offer : Offer} {table rest : Leaderboard} {n : Int32}

-- The ways in which a call makes room for its offer.
inductive MakesRoom (offer : Offer) (table : Leaderboard) : Leaderboard → Prop
  | free (h : table.rows.leaderboardCount offer.n < offer.capacity.toInt) : MakesRoom offer table table
  | empty (h : table.rows.board offer.n = []) : MakesRoom offer table table
  | evict (w : LeaderboardEntry) (h : offer.capacity.toInt ≤ table.rows.leaderboardCount offer.n)
      (hw : table.rows.worst offer.n offer.scan = some w) (hs : offer.scoreBytes < w.scoreBytes) :
      MakesRoom offer table (table.delete offer.n [w.cid])

-- The reasons for which a call refuses its offer.
inductive Refuses (offer : Offer) (table : Leaderboard) : Prop
  | known (h : offer.cid ∈ table.cids offer.n)
  | full (w : LeaderboardEntry) (h : offer.capacity.toInt ≤ table.rows.leaderboardCount offer.n)
      (hw : table.rows.worst offer.n offer.scan = some w) (hs : w.scoreBytes ≤ offer.scoreBytes)

def admitted (offer : Offer) (rest : Leaderboard) : Leaderboard :=
  rest.insertNew <| offer.entry <| offer.newRank rest.rows

theorem isSome_existing : (table.rows.existing offer.n offer.cid).isSome ↔ offer.cid ∈ table.cids offer.n := by
  rw [Rows.isSome_existing, mem_cids]

theorem evictWorst_cases (offer : Offer) (table : Leaderboard) :
    (offer.evictWorst table = none ∧ offer.Refuses table) ∨
    ∃ rest, offer.evictWorst table = some rest ∧ offer.MakesRoom table rest := by
  rw [evictWorst]
  split
  case isFalse hc => exact .inr ⟨table, rfl, .free <| Int.not_le.mp hc⟩
  case isTrue hc =>
    cases hw : table.rows.worst offer.n offer.scan
    case none => exact .inr ⟨table, rfl, .empty <| Rows.worst_eq_none_iff.mp hw⟩
    case some w =>
      by_cases hs : offer.scoreBytes ≥ w.scoreBytes
      case pos => exact .inl ⟨if_pos hs, .full w hc hw hs⟩
      case neg => exact .inr ⟨_, if_neg hs, .evict w hc hw <| not_le.mp hs⟩

-- What a call can do: refuse the offer and leave the table as it is, or make room, insert and trim.
theorem tryAdmit_cases (offer : Offer) (table : Leaderboard) :
    (offer.Refuses table ∧ offer.tryAdmit table = (none, table)) ∨
    ∃ rest, offer.cid ∉ table.cids offer.n ∧ offer.evictWorst table = some rest ∧ offer.MakesRoom table rest ∧
      offer.tryAdmit table = (some (offer.newRank rest.rows),
        (offer.admitted rest).trimLeaderboard offer.n offer.capacity offer.scan) := by
  rw [tryAdmit]
  split
  case isTrue h => exact .inl ⟨.known <| isSome_existing.mp h, rfl⟩
  case isFalse h =>
    rcases evictWorst_cases offer table with ⟨he, hr⟩ | ⟨rest, he, hr⟩
    case inl => exact .inl ⟨hr, by rw [he]⟩
    case inr => exact .inr ⟨rest, isSome_existing.not.mp h, he, hr, by rw [he]; rfl⟩

theorem MakesRoom.board_of_ne (h : offer.MakesRoom table rest) (hn : n ≠ offer.n) :
    rest.rows.board n = table.rows.board n := by
  cases h
  case free | empty => rfl
  case evict        => exact Rows.board_delete_of_ne hn

theorem MakesRoom.sublist (h : offer.MakesRoom table rest) :
    (rest.rows.board offer.n).Sublist (table.rows.board offer.n) := by
  cases h
  case free | empty => exact .refl _
  case evict        => exact Rows.board_delete ▸ List.filter_sublist

theorem MakesRoom.cids_subset (h : offer.MakesRoom table rest) : rest.cids offer.n ⊆ table.cids offer.n := by
  intro cid hc
  have ⟨e, he, hc⟩ := mem_cids.mp hc
  exact mem_cids.mpr ⟨e, h.sublist.mem he, hc⟩

-- The calls for other boards.
theorem board_tryAdmit_of_ne (hn : n ≠ offer.n) : (offer.tryAdmit table).2.rows.board n = table.rows.board n := by
  rcases tryAdmit_cases offer table with ⟨_, h⟩ | ⟨rest, _, _, hr, h⟩ <;> rw [h]
  case inr =>
    rw [trimLeaderboard, Leaderboard.delete, Rows.board_delete_of_ne hn, admitted, Leaderboard.insertNew,
      Rows.board_insertNew_of_ne hn, hr.board_of_ne hn]

theorem board_admitted (h : offer.cid ∉ rest.cids offer.n) :
    (offer.admitted rest).rows.board offer.n =
      rest.rows.board offer.n ++ [offer.entry <| offer.newRank rest.rows] :=
  Rows.board_insertNew (e := offer.entry _) fun e' he' hc => h <| mem_cids.mpr ⟨e', he', hc⟩

theorem leaderboardCount_admitted (h : offer.cid ∉ rest.cids offer.n) :
    (offer.admitted rest).rows.leaderboardCount offer.n = rest.rows.leaderboardCount offer.n + 1 := by
  rw [Rows.leaderboardCount, board_admitted h, List.length_append, List.length_singleton, Rows.leaderboardCount]

theorem leaderboardCount_evict {w : LeaderboardEntry} (hw : table.rows.worst offer.n offer.scan = some w) :
    (table.delete offer.n [w.cid]).rows.leaderboardCount offer.n + 1 = table.rows.leaderboardCount offer.n := by
  have hm : w.cid ∈ table.cids offer.n := mem_cids.mpr ⟨w, Rows.worst_mem hw, rfl⟩
  have := Finset.card_pos.mpr ⟨_, hm⟩
  rw [← card_cids, ← card_cids, cids_delete, List.toFinset_cons, List.toFinset_nil, insert_empty_eq,
    Finset.sdiff_singleton_eq_erase, Finset.card_erase_of_mem hm]
  omega

end Offer

-- An offer to board 5 whose score is a single byte.
def Offer.ofByte (cid : String) (byte : UInt8) (capacity : Int32) : Offer where
  n          := 5
  cid        := cid
  keyId      := "key"
  scoreBytes := ⟨[byte]⟩
  capacity   := capacity
  now        := 0
  scan       := .heap
