import Extremal.Lib.Selection
import Extremal.Store.Theorems.Leaderboard

open Lexicographic Selection Leaderboard

section Selection

variable {offer : Offer} {table rest : Leaderboard} {score : String → Word UInt8} {offered : Finset String}
  {n : Int32} {c : Nat}

-- Each row of board `n` carries the score of its graph.
def Leaderboard.Scored (table : Leaderboard) (n : Int32) (score : String → Word UInt8) : Prop :=
  ∀ e ∈ table.rows.board n, e.scoreBytes = score e.cid

-- Board `n` holds the best `c` of the graphs offered to it.
structure Leaderboard.Best (table : Leaderboard) (n : Int32) (score : String → Word UInt8) (c : Nat)
    (offered : Finset String) : Prop where
  scored : table.Scored n score
  least  : Least score c offered (table.cids n)

namespace Offer

theorem scored_admitted (hs : rest.Scored offer.n score) (ho : offer.scoreBytes = score offer.cid)
    (hc : offer.cid ∉ rest.cids offer.n) : (offer.admitted rest).Scored offer.n score := by
  intro e he
  rw [board_admitted hc] at he
  cases List.mem_append.mp he
  case inl he => exact hs e he
  case inr he =>
    rw [List.mem_singleton.mp he]
    exact ho

theorem MakesRoom.scored (hr : offer.MakesRoom table rest) (hs : table.Scored offer.n score) :
    rest.Scored offer.n score :=
  fun e he => hs e <| hr.sublist.mem he

-- A call on a full board that does not beat the worst entry.
theorem Refuses.best (h : offer.Refuses table) (hb : table.Best offer.n score c offered)
    (hi : Set.InjOn score (insert offer.cid offered)) (ho : offer.scoreBytes = score offer.cid)
    (hc : offer.capacity.toInt = c) : table.Best offer.n score c (insert offer.cid offered) := by
  refine ⟨hb.scored, ?_⟩
  by_cases hk : offer.cid ∈ table.cids offer.n
  case pos => exact hb.least.insert_of_mem <| hb.least.subset hk
  case neg =>
    cases h
    case known hk' => exact absurd hk' hk
    case full w hf hw hs =>
      have hl := hb.least.card
      have hn := card_cids table offer.n
      refine hb.least.insert_skip (by omega) fun cid hm => ?_
      have ⟨e, he, hcid⟩ := mem_cids.mp hm
      have hle : score cid ≤ score offer.cid := by
        rw [← hcid, ← hb.scored e he, ← ho]
        exact (Rows.le_worst hw he).trans hs
      refine lt_of_le_of_ne hle fun heq => hk ?_
      rwa [← hi (by simp [hb.least.subset hm]) (by simp) heq]

-- A call that finds or makes room.
theorem MakesRoom.least (hr : offer.MakesRoom table rest) (hb : table.Best offer.n score c offered)
    (hk : offer.cid ∉ table.cids offer.n) (hi : Set.InjOn score offered)
    (ho : offer.scoreBytes = score offer.cid) (hc : offer.capacity.toInt = c) (hpos : 0 < c) :
    Least score c (insert offer.cid offered) (insert offer.cid (rest.cids offer.n)) ∧
    rest.rows.leaderboardCount offer.n < c := by
  have hn := card_cids table offer.n
  cases hr
  case free hf =>
    have : (table.cids offer.n).card < c := by omega
    exact ⟨hb.least.insert_below this hk, by omega⟩
  case empty he =>
    have : table.rows.leaderboardCount offer.n = 0 := by simp [Rows.leaderboardCount, he]
    exact ⟨hb.least.insert_below (by omega) hk, by omega⟩
  case evict w hf hw hs =>
    have hl := hb.least.card
    have hwm : w ∈ table.rows.board offer.n := Rows.worst_mem hw
    have hwc : w.cid ∈ table.cids offer.n := mem_cids.mpr ⟨w, hwm, rfl⟩
    have hcount := Offer.leaderboardCount_evict hw
    refine ⟨?_, by omega⟩
    have hd : (table.delete offer.n [w.cid]).cids offer.n = (table.cids offer.n).erase w.cid := by
      rw [cids_delete, List.toFinset_cons, List.toFinset_nil, insert_empty_eq, Finset.sdiff_singleton_eq_erase]
    rw [hd]
    refine hb.least.insert_swap (by omega) hwc ?_ hk fun cid hm hne => ?_
    · rwa [← hb.scored w hwm, ← ho]
    · obtain ⟨e, he, hcid⟩ := mem_cids.mp hm
      have hle : score cid ≤ score w.cid := by
        rw [← hcid, ← hb.scored e he, ← hb.scored w hwm]
        exact Rows.le_worst hw he
      exact lt_of_le_of_ne hle fun heq => hne <| hi (hb.least.subset hm) (hb.least.subset hwc) heq

theorem best_tryAdmit (hb : table.Best offer.n score c offered)
    (hi : Set.InjOn score (insert offer.cid offered)) (ho : offer.scoreBytes = score offer.cid)
    (hc : offer.capacity.toInt = c) (hpos : 0 < c) :
    (offer.tryAdmit table).2.Best offer.n score c (insert offer.cid offered) := by
  rcases tryAdmit_cases offer table with ⟨hr, h⟩ | ⟨rest, hk, _, hr, h⟩ <;> rw [h]
  case inl => exact hr.best hb hi ho hc
  case inr =>
    have ⟨hl, hlt⟩ := hr.least hb hk (hi.mono <| Set.subset_insert ..) ho hc hpos
    have hk' : offer.cid ∉ rest.cids offer.n := fun hm => hk <| hr.cids_subset hm
    have hcount := leaderboardCount_admitted hk'
    rw [trimLeaderboard_of_le (by omega)]
    refine ⟨scored_admitted (hr.scored hb.scored) ho hk', ?_⟩
    rwa [show (offer.admitted rest).cids offer.n = _ from cids_insertNew (e := offer.entry _) hk']

end Offer

-- The graphs offered to board `n`.
def offeredTo (n : Int32) (offers : List Offer) : Finset String :=
  (offers.filter (·.n = n)).map (·.cid) |>.toFinset

theorem offeredTo_cons (offers : List Offer) : offeredTo n (offer :: offers) =
    if offer.n = n then insert offer.cid (offeredTo n offers) else offeredTo n offers := by
  by_cases h : offer.n = n <;> simp [offeredTo, h]

theorem offeredTo_perm {offers offers' : List Offer} (h : offers.Perm offers') :
    offeredTo n offers = offeredTo n offers' :=
  List.toFinset_eq_of_perm _ _ <| (h.filter _).map _

theorem Leaderboard.Best.of_board_eq {table' : Leaderboard} (hb : table.Best n score c offered)
    (h : table'.rows.board n = table.rows.board n) : table'.Best n score c offered where
  scored := by rw [Scored, h]; exact hb.scored
  least  := cids_congr h ▸ hb.least

theorem best_admitAll (offers : List Offer) (hpos : 0 < c)
    (hi : Set.InjOn score (offered ∪ offeredTo n offers : Finset String))
    (ho : ∀ o ∈ offers, o.n = n → o.scoreBytes = score o.cid ∧ o.capacity.toInt = c)
    (hb : table.Best n score c offered) :
    (table.admitAll offers).Best n score c (offered ∪ offeredTo n offers) := by
  induction offers generalizing table offered
  case nil => simpa [admitAll, offeredTo] using hb
  case cons offer offers ih =>
    have ho' := fun o hm => ho o <| List.mem_cons_of_mem offer hm
    rw [offeredTo_cons] at hi ⊢
    by_cases hn : offer.n = n
    case pos =>
      subst hn
      have ⟨hs, hc⟩ := ho offer List.mem_cons_self rfl
      rw [if_pos rfl, Finset.union_insert, ← Finset.insert_union] at hi ⊢
      refine ih hi ho' <| Offer.best_tryAdmit hb (hi.mono fun cid hm => ?_) hs hc hpos
      simp at hm ⊢
      tauto
    case neg =>
      rw [if_neg hn] at hi ⊢
      exact ih hi ho' <| hb.of_board_eq <| Offer.board_tryAdmit_of_ne <| Ne.symm hn

theorem best_empty (h : table.rows.board n = []) : table.Best n score c ∅ where
  scored := by simp [Scored, h]
  least  := by
    rw [show table.cids n = ∅ by simp [cids, h]]
    exact .empty

theorem board_admitAll_of_ne (offers : List Offer) (h : ∀ o ∈ offers, o.n ≠ n) :
    (table.admitAll offers).rows.board n = table.rows.board n := by
  induction offers generalizing table
  case nil => rfl
  case cons offer offers ih =>
    rw [admitAll, List.foldl_cons, ← admitAll, ih fun o hm => h o <| List.mem_cons_of_mem offer hm]
    exact Offer.board_tryAdmit_of_ne (h offer List.mem_cons_self).symm

end Selection

open Finset in
-- From an empty board on, board `n` holds exactly the best of the graphs that were offered to it, in
-- whatever order they came. The other boards stay as they are.
theorem Leaderboard.admitAll_keeps_best {table : Leaderboard} {n : Int32} (hempty : table.rows.board n = [])
    {c : Nat} (hpos : 0 < c) {offers : List Offer} (hc : ∀ o ∈ offers, o.n = n → o.capacity.toInt = c)
    {score : String → Word UInt8} (hi : Set.InjOn score (offeredTo n offers))
    (ho : ∀ o ∈ offers, o.n = n → o.scoreBytes = score o.cid) :
    let board := (table.admitAll offers).rows.board n
    (board.map (·.cid)).Nodup ∧ board.length = min c #(offeredTo n offers) ∧
    (∀ e ∈ board, e.cid ∈ offeredTo n offers ∧ e.scoreBytes = score e.cid) ∧
    (∀ cid ∈ offeredTo n offers, cid ∉ board.map (·.cid) → ∀ e ∈ board, e.scoreBytes < score cid) ∧
    (∀ offers', offers'.Perm offers → (table.admitAll offers').cids n = (table.admitAll offers).cids n) ∧
    ∀ n', (∀ o ∈ offers, o.n ≠ n') → (table.admitAll offers).rows.board n' = table.rows.board n' := by
  have best {offers' : List Offer} (hp : offers'.Perm offers) :
      (table.admitAll offers').Best n score c (offeredTo n offers) := by
    rw [← offeredTo_perm hp] at hi ⊢
    rw [← empty_union (offeredTo n offers')] at hi ⊢
    exact best_admitAll offers' hpos hi (fun o hm hn => ⟨ho o (hp.mem_iff.mp hm) hn, hc o (hp.mem_iff.mp hm) hn⟩)
      (best_empty hempty)
  have ⟨hs, hl⟩ := best <| .refl offers
  have hcids (e) (he : e ∈ (table.admitAll offers).rows.board n) : e.cid ∈ (table.admitAll offers).cids n :=
    mem_cids.mpr ⟨e, he, rfl⟩
  refine ⟨nodup_cids .., ?_, fun e he => ⟨hl.subset <| hcids e he, hs e he⟩, fun cid hm hn e he => ?_,
    fun offers' hp => (best hp).least.unique hl, fun n' h => board_admitAll_of_ne offers h⟩
  · rw [← hl.card, card_cids, Rows.leaderboardCount]
  · rw [hs e he]
    exact hl.lt e.cid (hcids e he) cid hm fun hm => hn <| List.mem_toFinset.mp hm

-- The graph `a` is evicted by `b` and offered again.
theorem Leaderboard.admitAll_evicts_and_refuses :
    let offers := [.ofByte "a" 3 1, .ofByte "b" 1 1, .ofByte "a" 3 1]
    let board := (empty.admitAll offers).rows.board 5
    board.length = 1 ∧ (∀ e ∈ board, e.scoreBytes < ⟨[3]⟩) ∧
    (empty.admitAll offers.reverse).cids 5 = (empty.admitAll offers).cids 5 := by
  intro offers board
  let score (cid : String) : Word UInt8 := if cid = "a" then ⟨[3]⟩ else ⟨[1]⟩
  have he : empty.rows.board 5 = [] := rfl
  have hc : ∀ o ∈ offers, o.n = 5 → o.capacity.toInt = (1 : Nat) := by decide +kernel
  have hi : Set.InjOn score (offeredTo 5 offers) := by
    show ∀ a ∈ offeredTo 5 offers, ∀ b ∈ offeredTo 5 offers, score a = score b → a = b
    decide +kernel
  have ho : ∀ o ∈ offers, o.n = 5 → o.scoreBytes = score o.cid := by decide +kernel
  have ⟨_, hlen, _, hlt, hperm, _⟩ := admitAll_keeps_best he (by decide) hc hi ho
  exact ⟨hlen.trans <| by decide +kernel, hlt "a" (by decide +kernel) (by decide +kernel),
    hperm _ (List.reverse_perm _)⟩
