import Extremal.Store.Theorems.Versions
import Extremal.Lib.Machine
import Extremal.Worker.Sync
import Extremal.Worker.Theorems.Engine

open Lexicographic

namespace CidSync

variable {setup : EngineSetup} {m : Nat} {offers : Fin m → Offer} {n : Int32} {s s' : CidSync m} {move : SyncMove m}
  {cid : String}

-- The worker knows the CID, if it can read it.
def Known (setup : EngineSetup) (s : CidSync m) (cid : String) : Prop :=
  ∀ x, GraphCid.fromHex setup.hex cid = some x → x ∈ s.worker.serverCids

-- No admission straddles a cursor: once a transaction has started, the next cursor comes from a query that
-- sees it, unless it has admitted nothing; and none starts at the very instant of the cursor.
def prompt (offers : Fin m → Offer) (n : Int32) (s : CidSync m) : SyncMove m → Prop
  | .sync => ∀ query ∈ s.answer, query.cids ≠ [] → ∀ i, (offers i).n = n → s.database.phase i ≠ .idle →
    query.committed i ∨ s.database.phase i = .committed none
  | .tryAdmit move => s.database.phase move.tx = .idle → (offers move.tx).n = n → s.worker.cidSyncCursor ≠ some s.clock
  | _ => True

instance : Decidable (prompt offers n s move) := by
  unfold prompt
  split <;> infer_instance

-- What a query has seen is still there: a row on the board whose transaction had committed was on the
-- board of the query.
structure Faithful (n : Int32) (database : Database m) (query : CidsQuery m) : Prop where
  committed : ∀ i, query.committed i → database.isCommitted i
  board     : ∀ v ∈ database.versions, database.isLive v → v.entry.n = n →
    (∀ i, v.xmin = some i → query.committed i) → v.entry.cid ∈ query.board

structure Complete (setup : EngineSetup) (offers : Fin m → Offer) (n : Int32) (s : CidSync m) : Prop where
  owned  : s.database.Owned offers
  clock  : ∀ c ∈ s.worker.cidSyncCursor, c ≤ s.clock
  later  : ∀ c ∈ s.worker.cidSyncCursor, ∀ i, (offers i).n = n → s.database.phase i ≠ .idle →
    c < (offers i).now ∨ s.database.isCommitted i
  known  : ∀ c ∈ s.worker.cidSyncCursor, ∀ v ∈ s.database.versions, s.database.isLive v → v.entry.n = n →
    v.entry.admittedAt ≤ c → s.Known setup v.entry.cid
  answer : ∀ query ∈ s.answer, Faithful n s.database query ∧
    ∀ cid ∈ query.board, cid ∈ query.cids ∨ s.Known setup cid
  cache  : ∀ query ∈ s.cache, Faithful n s.database query ∧ query.board ⊆ query.cids
  synced : ∀ cid ∈ s.synced, s.Known setup cid

theorem faithful_evaluate (scan : Scan) (since : Option Nat) : Faithful n s.database (s.evaluate n scan since) where
  committed _ h := h
  board v hv hl hn _ := List.mem_map_of_mem <| Database.mem_board_committedRows.mpr ⟨v, hv, hl, hn, rfl⟩

theorem evaluate_full (scan : Scan) : (s.evaluate n scan none).board ⊆ (s.evaluate n scan none).cids := by
  intro cid hc
  have ⟨e, he, hc⟩ := List.mem_map.mp hc
  have hs : ∀ t ∈ (none : Option Nat), t < e.admittedAt := nofun
  exact Rows.mem_leaderboardCids.mpr ⟨e, he, hs, hc⟩

-- An incremental query leaves out what the worker knows.
theorem Complete.evaluate (h : s.Complete setup offers n) (scan : Scan) :
    ∀ cid ∈ (s.evaluate n scan s.worker.cidSyncCursor).board,
      cid ∈ (s.evaluate n scan s.worker.cidSyncCursor).cids ∨ s.Known setup cid := by
  intro cid hc
  have ⟨e, he, hc⟩ := List.mem_map.mp hc
  by_cases hs : ∀ t ∈ s.worker.cidSyncCursor, t < e.admittedAt
  case pos => exact .inl <| Rows.mem_leaderboardCids.mpr ⟨e, he, hs, hc⟩
  case neg =>
    simp only [not_forall, not_lt] at hs
    have ⟨t, ht, ha⟩ := hs
    have ⟨v, hv, hl, hn, he⟩ := Database.mem_board_committedRows.mp he
    subst he hc
    exact .inr <| h.known t ht v hv hl hn ha

theorem Faithful.moved {database database' : Database m} {i : Fin m} {query : CidsQuery m}
    (h : Faithful n database query) (hm : Database.Moved offers database i database') : Faithful n database' query where
  committed j hj := hm.isCommitted <| h.committed j hj
  board v hv hl hn hx := by
    rcases hm.isLive hv hl with hi | ⟨v', hv', hl', he, hx'⟩
    case inl => exact absurd (h.committed i <| hx i hi) hm.running
    case inr =>
      rw [← he] at hn ⊢
      exact h.board v' hv' hl' hn <| hx' ▸ hx

theorem Complete.tryAdmit {move : Move m} (h : s.Complete setup offers n) (hp : s.prompt offers n (.tryAdmit move))
    (e : s.tryAdmit offers move = some s') : s'.Complete setup offers n := by
  rw [CidSync.tryAdmit] at e
  split at e
  case isTrue => cases e
  case isFalse hnow =>
    have ⟨database, hd, hs'⟩ := Option.map_eq_some_iff.mp e
    have hm := Database.step_moved hd
    subst hs'
    have ⟨howned, hclock, hlater, hknown, hanswer, hcache, hsynced⟩ := h
    have howned' : database.Owned offers := howned.moved hm
    -- A transaction that still runs has started after the cursor.
    have hnew (c : Nat) (hc : c ∈ s.worker.cidSyncCursor) (hn : (offers move.tx).n = n) : c < (offers move.tx).now := by
      by_cases hi : s.database.phase move.tx = .idle
      case neg => exact (hlater c hc move.tx hn hi).resolve_right hm.running
      case pos =>
        have hnow : (offers move.tx).now = s.clock := not_not.mp fun h => hnow ⟨hi, h⟩
        rw [hnow]
        refine lt_of_le_of_ne (hclock c hc) fun he => hp hi hn ?_
        rw [← he]
        exact hc
    constructor
    case owned  => exact howned'
    case clock  => exact hclock
    case synced => exact hsynced
    case answer => exact fun query hq => (hanswer query hq).imp_left (·.moved hm)
    case cache  => exact fun query hq => (hcache query hq).imp_left (·.moved hm)
    case later =>
      intro c hc i hn hi
      by_cases hj : i = move.tx
      case pos => exact .inl <| hj ▸ hnew c hc (hj ▸ hn)
      case neg =>
        have hi : s.database.phase i ≠ .idle := hm.others i hj ▸ hi
        exact (hlater c hc i hn hi).imp_right hm.isCommitted
    case known =>
      intro c hc v hv hl hn ha
      rcases hm.isLive hv hl with hi | ⟨v', hv', hl', he, _⟩
      case inl =>
        have ⟨⟨newRank, he⟩, _⟩ := howned' v hv move.tx hi
        rw [he] at hn ha
        exact absurd ha <| (hnew c hc hn).not_ge
      case inr =>
        rw [← he] at hn ha ⊢
        exact hknown c hc v' hv' hl' hn ha

-- After a sync the worker knows the board of the query.
theorem Complete.sync {query : CidsQuery m} (h : s.Complete setup offers n) (hp : s.prompt offers n .sync)
    (hq : s.answer = some query) :
    CidSync.Complete setup offers n
      { s with worker := s.worker.syncCids setup query.cids s.clock, answer := none, synced := query.board } := by
  have ⟨howned, hclock, hlater, hknown, hanswer, hcache, _⟩ := h
  have ⟨hfaithful, hboard⟩ := hanswer query hq
  let s' : CidSync m :=
    { s with worker := s.worker.syncCids setup query.cids s.clock, answer := none, synced := query.board }
  have mono {cid} (hk : s.Known setup cid) : s'.Known setup cid :=
    fun x hx => Finset.mem_union_left _ <| hk x hx
  have hsynced (cid) (hc : cid ∈ query.board) : s'.Known setup cid := by
    refine (hboard cid hc).elim (fun hc x hx => ?_) mono
    exact Finset.mem_union_right _ <| List.mem_toFinset.mpr <| List.mem_filterMap.mpr ⟨cid, hc, hx⟩
  by_cases hne : query.cids = []
  case pos =>
    have hcursor : s'.worker.cidSyncCursor = s.worker.cidSyncCursor := by simp [s', EngineState.syncCids, hne]
    constructor
    case owned  => exact howned
    case clock  => rwa [hcursor]
    case later  => rwa [hcursor]
    case known  => rw [hcursor]; exact fun c hc v hv hl hn ha => mono <| hknown c hc v hv hl hn ha
    case answer => nofun
    case cache  => exact hcache
    case synced => exact hsynced
  case neg =>
    have hcursor : s'.worker.cidSyncCursor = some s.clock :=
      if_pos <| List.length_pos_iff.mpr hne
    have hcommitted := hp query hq hne
    constructor
    case owned  => exact howned
    case answer => nofun
    case cache  => exact hcache
    case synced => exact hsynced
    case clock =>
      rw [hcursor]
      rintro c ⟨⟩
      exact le_rfl
    case later =>
      rw [hcursor]
      rintro c ⟨⟩ i hn hi
      refine .inr <| (hcommitted i hn hi).elim (hfaithful.committed i) fun hp => ?_
      rw [Database.isCommitted, hp]
      rfl
    case known =>
      rw [hcursor]
      rintro c ⟨⟩ v hv hl hn _
      refine hsynced _ <| hfaithful.board v hv hl hn fun i hi => ?_
      obtain ⟨⟨newRank, he⟩, hins⟩ := howned v hv i hi
      have hn : (offers i).n = n := by rw [← hn, he]; rfl
      refine (hcommitted i hn fun hp => ?_).resolve_right fun hp => ?_
      all_goals rw [hp] at hins; cases hins

theorem complete_step (h : s.Complete setup offers n) (hp : s.prompt offers n move)
    (e : s.step setup offers n move = some s') : s'.Complete setup offers n := by
  have ⟨howned, hclock, hlater, hknown, hanswer, hcache, hsynced⟩ := h
  cases move
  case tick =>
    cases e
    exact ⟨howned, fun c hc => (hclock c hc).trans <| Nat.le_succ _, hlater, hknown, hanswer, hcache, hsynced⟩
  case tryAdmit move => exact h.tryAdmit hp e
  case query scan =>
    simp only [step] at e
    split at e <;> cases e
    refine ⟨howned, hclock, hlater, hknown, ?_, ?_, hsynced⟩
    · rintro query ⟨⟩
      exact ⟨faithful_evaluate scan _, h.evaluate scan⟩
    · intro query hq
      cases hc : s.worker.cidSyncCursor
      case some c =>
        rw [hc] at hq
        exact hcache query hq
      case none =>
        rw [hc] at hq
        cases hq
        exact ⟨faithful_evaluate scan _, evaluate_full scan⟩
  case cached =>
    simp only [step] at e
    split at e <;> cases e
    refine ⟨howned, hclock, hlater, hknown, fun query hq => ?_, hcache, hsynced⟩
    exact (hcache query hq).imp_right fun hc cid hm => .inl <| hc hm
  case fillCache scan =>
    cases e
    refine ⟨howned, hclock, hlater, hknown, hanswer, ?_, hsynced⟩
    rintro query ⟨⟩
    exact ⟨faithful_evaluate scan _, evaluate_full scan⟩
  case expireCache =>
    cases e
    exact ⟨howned, hclock, hlater, hknown, hanswer, nofun, hsynced⟩
  case sync =>
    have ⟨query, hq, e⟩ := Option.map_eq_some_iff.mp e
    subst e
    exact h.sync hp hq

-- After each sync the worker knows the CIDs that were on the board when the server evaluated the query.
theorem sync_misses_nothing (setup : EngineSetup) (offers : Fin m → Offer) (n : Int32) (config : EngineConfig)
    (rows : Rows) (clock : Nat)
    (r : Machine.Run (step setup offers n) (prompt offers n) (init config rows clock) s) :
    ∀ cid ∈ s.synced, ∀ x, GraphCid.fromHex setup.hex cid = some x → x ∈ s.worker.serverCids := by
  refine @Complete.synced _ setup offers n _ ?_
  refine r.invariant (Complete setup offers n) complete_step ?_
  exact ⟨Database.owned_init rows, nofun, nofun, nofun, nofun, nofun, nofun⟩

-- The first of two admissions starts at the time `0`.
def twoOffers (now : Nat) (i : Fin 2) : Offer :=
  if i.val = 0 then .ofByte (.ofList <| .replicate 64 '1') 5 2
  else { Offer.ofByte (.ofList <| .replicate 64 '2') 3 2 with now := now }

-- The moves of a call to `try_admit` that deletes nothing.
def admission (i : Fin 2) : List (SyncMove 2) :=
  .replicate 8 <| .tryAdmit ⟨i, .heap, 0⟩

open ReferenceEngine in
theorem sync_meets_both :
    ∃ s, Machine.Run (step (engine false) (twoOffers 2) 5) (prompt (twoOffers 2) 5) (init (options false 10000) [] 0) s ∧
      s.synced.length = 2 ∧
      ∀ cid ∈ s.synced, ∀ x, GraphCid.fromHex ReferenceHex.hex cid = some x → x ∈ s.worker.serverCids := by
  let step' := Machine.guarded (step (engine false) (twoOffers 2) 5) (prompt (twoOffers 2) 5)
  have ⟨s, e, h⟩ : ∃ s ∈ Machine.execute step' (init (options false 10000) [] 0)
      (admission 0 ++ [.tick, .query .heap, .sync, .tick] ++ admission 1 ++ [.query .heap, .sync]),
      s.synced.length = 2 := by decide +kernel
  have r := Machine.Run.of_guarded e
  exact ⟨s, r, h, sync_misses_nothing _ _ _ _ _ _ r⟩

-- The second admission starts before the first query and commits after it, and the cursor is later than
-- its start.
open ReferenceEngine in
theorem straddling_admission_is_missed :
    ∃ s ∈ Machine.execute (step (engine false) (twoOffers 1) 5) (init (options false 10000) [] 0)
        (admission 0 ++ [.tick, .tryAdmit ⟨1, .heap, 0⟩, .query .heap] ++ (admission 1).tail ++
          [.tick, .sync, .query .heap, .sync]),
      ∃ cid ∈ s.synced, ∃ x ∈ GraphCid.fromHex ReferenceHex.hex cid, x ∉ s.worker.serverCids := by
  decide +kernel

end CidSync
