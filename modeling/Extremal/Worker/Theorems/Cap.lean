import Extremal.Lib.Sorting
import Extremal.Scoring.Theorems.Histogram
import Extremal.Scoring.Theorems.Score
import Extremal.Worker.Theorems.Memory

-- nauty reports the size of a group, which is positive.
structure Crates.PositiveOrder (lib : Crates) : Prop where
  positive : ∀ m : AdjacencyMatrix, 1 ≤ m.n → 0.0 < (lib.densenauty m.n (denseGraph m)).2

namespace GraphScore

def NoWorse (a b : GraphScore) : Prop :=
  (a.cmp b).isLE

instance : DecidableRel NoWorse :=
  fun a b => inferInstanceAs <| Decidable ((a.cmp b).isLE)

variable {a b : GraphScore}

theorem ranks_noWorse : Sorting.Ranks NoWorse Valid where
  total {a b} ha hb := by
    have ⟨_, hs, _⟩ := cmp_total_and_compare_toScoreBytes ha hb hb
    rw [NoWorse, NoWorse, hs]
    cases b.cmp a <;> simp
  trans ha hb hc h h' := cmp_total_and_compare_toScoreBytes ha hb hc |>.2.2.2.1 h h'

theorem cmp_ne_lt_iff (ha : a.Valid) (hb : b.Valid) : a.cmp b ≠ .lt ↔ b.NoWorse a := by
  have ⟨_, hs, _⟩ := cmp_total_and_compare_toScoreBytes ha hb hb
  rw [NoWorse, hs]
  cases b.cmp a <;> simp

theorem cmp_eq_iff (ha : a.Valid) (hb : b.Valid) : a.cmp b = .eq ↔ a.NoWorse b ∧ b.NoWorse a := by
  have ⟨_, hs, _⟩ := cmp_total_and_compare_toScoreBytes ha hb hb
  rw [NoWorse, NoWorse, hs]
  cases b.cmp a <;> simp

end GraphScore

open GraphScore

theorem Engine.valid_score {lib : Crates} (h : lib.PositiveOrder) (n maxK : Nat) (graph : AdjacencyMatrix) :
    (Engine.score lib n maxK graph).Valid where
  increasing := CliqueHistogram.compute_increasing
  atLeast t ht := (CliqueHistogram.compute_bounds t ht).1
  positive := by
    show 0.0 < (canonicalForm lib graph).2
    rw [canonicalForm]
    split
    case isTrue => decide +kernel
    case isFalse hn =>
      rw [runNauty, if_neg hn]
      exact h.positive graph (by omega)

-- The discoveries that are kept are 200 of the buffer, and none of the others has a better score than
-- one of them.
def KeepsBest (before after : List ScoredDiscovery) : Prop :=
  after.length = 200 ∧
  ∃ dropped, before.Perm (dropped ++ after) ∧ ∀ d ∈ dropped, ∀ k ∈ after, d.score.cmp k.score ≠ .lt

namespace EngineState

variable {setup : EngineSetup} {s s' : EngineState} {input : EngineInput} {discoveries : List RawDiscovery}

structure Ranked (buffer : List ScoredDiscovery) : Prop where
  valid  : ∀ d ∈ buffer, d.score.Valid
  cid    : ∀ d ∈ buffer, d.score.cid = d.cid
  sorted : buffer.Pairwise fun a b => a.score.NoWorse b.score

theorem Ranked.sublist {buffer buffer' : List ScoredDiscovery} (h : Ranked buffer) (hs : buffer'.Sublist buffer) :
    Ranked buffer' where
  valid d hd  := h.valid d <| hs.mem hd
  cid d hd    := h.cid d <| hs.mem hd
  sorted      := h.sorted.sublist hs

theorem ranks_buffer : Sorting.Ranks (fun a b : ScoredDiscovery => a.score.NoWorse b.score) (·.score.Valid) where
  total ha hb       := ranks_noWorse.total ha hb
  trans ha hb hc    := ranks_noWorse.trans ha hb hc

section Runs

variable (hp : setup.lib.PositiveOrder)
include hp

theorem valid_newScored : ∀ d ∈ (s.collect setup discoveries).newScored, d.score.Valid ∧ d.score.cid = d.cid := by
  refine Loop.foldl_induction (fun c : Collected => ∀ d ∈ c.newScored, d.score.Valid ∧ d.score.cid = d.cid)
    (fun c discovery _ hc => ?_) nofun
  simp only [collectOne]
  split_ifs <;> simp only [newScored_sendDiscovery]
  case neg =>
    intro d hd
    rcases List.mem_append.mp hd with hd | hd
    · exact hc d hd
    · cases List.mem_singleton.mp hd
      exact ⟨Engine.valid_score hp .., rfl⟩
  all_goals exact hc

theorem Ranked.addToBuffer (h : Ranked s.submitBuffer) : Ranked (s.addToBuffer setup discoveries).submitBuffer := by
  have hv : ∀ d ∈ s.submitBuffer ++ (s.collect setup discoveries).newScored, d.score.Valid ∧ d.score.cid = d.cid := by
    intro d hd
    rcases List.mem_append.mp hd with hd | hd
    · exact ⟨h.valid d hd, h.cid d hd⟩
    · exact valid_newScored hp d hd
  constructor
  case valid  => exact fun d hd => hv d (perm_addToBuffer.mem_iff.mp hd) |>.1
  case cid    => exact fun d hd => hv d (perm_addToBuffer.mem_iff.mp hd) |>.2
  case sorted => exact ranks_buffer.pairwise_insertionSort fun d hd => (hv d hd).1

omit hp in
theorem submitBuffer_submitNext (toSubmit : List ScoredDiscovery) :
    (s.submitNext toSubmit).submitBuffer.Sublist s.submitBuffer := by
  rcases submitNext_cases s toSubmit with ⟨_, e⟩ | ⟨_, e⟩
  case inr => rw [e]; exact List.Sublist.refl _
  case inl =>
    rw [e]
    rcases capBuffer_cases s with e | ⟨dropped, kept, hb, e⟩
    · rw [e]; exact List.Sublist.refl _
    · rw [e, hb]; exact List.sublist_append_right ..

theorem ranked_step (h : Ranked s.submitBuffer) (e : s.step setup input = some s') : Ranked s'.submitBuffer := by
  cases step_cases e
  case control hc _   => exact hc.submitBuffer ▸ h
  case sync           => exact h
  case panic          => exact h
  case trim hs ht =>
    have ⟨_, _, _, _, _, _, ht⟩ := trimCids_spec ht
    exact ht ▸ h
  case submit discovery rest ok _ =>
    rw [finishSubmit]
    split <;> exact h.sublist <| submitBuffer_submitNext ..
  case search result discoveries _ =>
    have hb : Ranked (s.addToBuffer setup <| toScore result discoveries).submitBuffer := h.addToBuffer hp
    rcases startSubmit_cases setup (s.addToBuffer setup <| toScore result discoveries) with e | ⟨toSubmit, rest, hr, e⟩
    · rw [finishSearch, e]; exact hb
    · rw [finishSearch, e]
      refine hb.sublist <| (submitBuffer_submitNext toSubmit).trans ?_
      rw [hr]
      exact List.sublist_append_right ..

theorem ranked_run {config : EngineConfig} {P : EngineState → EngineInput → Prop}
    (r : Machine.Run (step setup) P (init config) s) : Ranked s.submitBuffer :=
  r.invariant (Ranked ·.submitBuffer) (fun h _ e => ranked_step hp h e) ⟨nofun, nofun, .nil⟩

end Runs

-- Dropping the front of a sorted buffer drops its best discoveries.
theorem keepsBest_iff {buffer : List ScoredDiscovery} (h : Ranked buffer) (hl : 500 < buffer.length) :
    KeepsBest buffer (buffer.drop (buffer.length - 200)) ↔ ∀ a ∈ buffer, ∀ b ∈ buffer, a.score.cmp b.score = .eq := by
  have hall : (∀ a ∈ buffer, ∀ b ∈ buffer, a.score.cmp b.score = .eq) ↔
      ∀ a ∈ buffer, ∀ b ∈ buffer, a.score.NoWorse b.score := by
    constructor
    case mp  => exact fun he a ha b hb => (cmp_eq_iff (h.valid a ha) (h.valid b hb)).mp (he a ha b hb) |>.1
    case mpr =>
      exact fun he a ha b hb => (cmp_eq_iff (h.valid a ha) (h.valid b hb)).mpr ⟨he a ha b hb, he b hb a ha⟩
  rw [hall, ← ranks_buffer.drop_ranks_take_iff h.valid h.sorted (i := buffer.length - 200) (by omega) (by omega)]
  have hd {d} (hd : d ∈ buffer.take (buffer.length - 200)) := h.valid d <| List.mem_of_mem_take hd
  have hk {k} (hk : k ∈ buffer.drop (buffer.length - 200)) := h.valid k <| List.mem_of_mem_drop hk
  constructor
  case mp =>
    intro ⟨_, dropped, hp, hb⟩ d hm k hm'
    have hp := (List.Perm.of_eq <| List.take_append_drop (buffer.length - 200) buffer).trans hp
    have hm' := hb d ((List.perm_append_right_iff _).mp hp |>.mem_iff.mp hm) k hm'
    exact (cmp_ne_lt_iff (hd hm) (hk ‹_›)).mp hm'
  case mpr =>
    intro he
    refine ⟨by simp only [List.length_drop]; omega, buffer.take (buffer.length - 200), ?_, ?_⟩
    · rw [List.take_append_drop]
    · exact fun d hm k hm' => (cmp_ne_lt_iff (hd hm) (hk hm')).mpr <| he d hm k hm'

-- The step that ends the submissions of a round.
theorem submitBuffer_capped {discovery : ScoredDiscovery} {rest : List ScoredDiscovery} {ok : Bool}
    (hs : s.stage = .submitting (discovery :: rest)) (ho : ok = false ∨ rest = []) (hl : 500 < s.submitBuffer.length)
    (e : s.step setup (.submit ok) = some s') : s'.submitBuffer = s.submitBuffer.drop (s.submitBuffer.length - 200) := by
  have e : s.finishSubmit discovery rest ok = s' := by simpa [step, hs] using e
  rw [← e, finishSubmit]
  rcases ho with rfl | rfl
  case inl => simp [submitNext, goto, capBuffer, record, hl]
  case inr => cases ok <;> simp [submitNext, goto, capBuffer, record, hl]

-- In every run, the cap keeps the best discoveries only if all discoveries in the buffer rank equal.
theorem cap_keeps_best_iff (setup : EngineSetup) (hp : setup.lib.PositiveOrder) (config : EngineConfig)
    {discovery : ScoredDiscovery} {rest : List ScoredDiscovery} {ok : Bool}
    (r : Machine.Run (step setup) (fun _ _ => True) (init config) s)
    (hs : s.stage = .submitting (discovery :: rest)) (ho : ok = false ∨ rest = []) (hl : 500 < s.submitBuffer.length)
    (e : s.step setup (.submit ok) = some s') :
    KeepsBest s.submitBuffer s'.submitBuffer ↔
      ∀ a ∈ s.submitBuffer, ∀ b ∈ s.submitBuffer, a.score.cmp b.score = .eq := by
  rw [submitBuffer_capped hs ho hl e]
  exact keepsBest_iff (ranked_run hp r) hl

section Stock

open ReferenceEngine

-- nauty on graphs with at most three vertices.
def smallNauty (n : Nat) (edges : List (Nat × Nat)) : List Nat × Float :=
  if n ≤ 3 then ReferenceNauty.densenauty n edges else (ReferenceNauty.best n edges, 1.0)

-- An engine without room for a CID that submits one discovery in each round.
def stockEngine : EngineSetup :=
  { engine false with lib := { ReferenceNauty.crates with densenauty := smallNauty } }

def stockOptions : EngineConfig :=
  { options false 0 with maxSubmissionsPerRound := 1 }

def threeFound : List RawDiscovery :=
  [⟨ReferenceNauty.path3, 0⟩, ⟨ReferenceNauty.triangle, 0⟩, ⟨.new 3, 0⟩]

def threeCids : Finset GraphCid :=
  (threeFound.map <| cidOf stockEngine).toFinset

-- Each round finds three graphs, and submits one of them in vain.
def stockSearch : List EngineInput :=
  [.shutdown false, .threshold none, .cids none 0,
   .search <| some ({ bestGraph := none, valid := false, iterationsUsed := 0 }, threeFound)]

def stockRest : List EngineInput :=
  [.submit false, .trim threeCids ∅ ∅, .shutdown false]

open ReferenceNauty in
theorem densenauty_pos {n : Nat} (hn : n ≤ 3) (edges : List (Nat × Nat)) : 0.0 < (densenauty n edges).2 := by
  let group := (List.range n).permutations'.filter (relabelled n edges · = relabelled n edges (best n edges))
  show 0.0 < Float.ofNat group.length
  have hpos : 0 < group.length :=
    List.length_pos_of_mem <| List.mem_filter.mpr ⟨List.mem_permutations'.mpr (isLabelling_best n edges), by simp⟩
  have hle : group.length ≤ 6 := calc
    group.length ≤ (List.range n).permutations'.length := List.length_filter_le ..
    _ ≤ 6 := by interval_cases n <;> decide
  generalize group.length = size at hpos hle
  interval_cases size <;> decide +kernel

theorem positiveOrder_stockEngine : stockEngine.lib.PositiveOrder where
  positive m _ := by
    show 0.0 < (smallNauty m.n (denseGraph m)).2
    rw [smallNauty]
    split
    case isTrue hn  => exact densenauty_pos hn _
    case isFalse    => show (0.0 : Float) < 1.0; decide +kernel

theorem card_threeCids : threeCids.card = 3 := by
  decide +kernel

-- What the engine holds after `k` rounds, and what all its rounds find.
structure Stock (s : EngineState) (known : Finset GraphCid) (size k : Nat) : Prop where
  engineState  : s.engineState = .searching
  config       : s.config = stockOptions
  knownCids    : s.knownCids = known
  serverCids   : s.serverCids = ∅
  dashSentCids : s.dashSentCids = ∅
  gate         : s.gate = .init
  length       : s.submitBuffer.length = size
  count        : ∀ cid, (s.submitBuffer.map (·.cid)).count cid ≤ k

theorem Stock.exists_cons {known : Finset GraphCid} {size k : Nat} (h : s.Stock known size k) (hs : 0 < size) :
    ∃ d rest, s.submitBuffer = d :: rest :=
  List.exists_cons_of_length_pos <| hs.trans_eq h.length.symm

theorem freshCids_three (hk : s.knownCids = ∅) (hv : s.serverCids = ∅) (hg : s.gate = .init) :
    s.freshCids stockEngine threeFound = threeCids := by
  have hw : ∀ d, s.worthwhile stockEngine d := by simp [worthwhile, hv, hg, Gate.drops, Gate.init]
  rw [freshCids, List.filter_eq_self.mpr fun d _ => hw d, hk, Finset.sdiff_empty, threeCids]

theorem dashSentCids_collect : (s.collect stockEngine discoveries).dashSentCids = s.dashSentCids := by
  refine Loop.foldl_induction (fun c : Collected => c.dashSentCids = s.dashSentCids) (fun c discovery _ hc => ?_) rfl
  simp only [collectOne, Collected.sendDiscovery, stockEngine, engine, Bool.false_eq_true, false_and, if_false]
  split_ifs <;> exact hc

theorem Stock.addToBuffer {k : Nat} (h : s.Stock ∅ (2 * k) k) :
    (s.addToBuffer stockEngine threeFound).Stock threeCids (2 * k + 3) (k + 1) := by
  have hf := freshCids_three h.knownCids h.serverCids h.gate
  have hc : Collected.Of stockEngine s threeFound _ := collect_of
  refine ⟨h.engineState, h.config, ?_, h.serverCids, dashSentCids_collect.trans h.dashSentCids, h.gate, ?_, ?_⟩
  · rw [knownCids_addToBuffer, hf, h.knownCids, Finset.empty_union]
  · rw [length_addToBuffer, hf, h.length, card_threeCids]
  · intro cid
    rw [(perm_addToBuffer.map _).count_eq, List.map_append, List.count_append]
    exact Nat.add_le_add (h.count cid) <| List.nodup_iff_count_le_one.mp hc.nodup cid

theorem stock_search {k : Nat} (hs : s.stage = .top) (h : s.Stock ∅ (2 * k) k) :
    ∃ s' ∈ Machine.execute (step stockEngine) s stockSearch, ∃ d,
      s'.stage = .submitting [d] ∧ s'.Stock threeCids (2 * k + 2) (k + 1) := by
  let s₁ := (s.startRound stockEngine).goto .search
  let s₂ := s₁.addToBuffer stockEngine threeFound
  have h₂ : s₂.Stock threeCids (2 * k + 3) (k + 1) :=
    Stock.addToBuffer ⟨h.engineState, h.config, h.knownCids, h.serverCids, h.dashSentCids, h.gate, h.length, h.count⟩
  obtain ⟨d, rest, hb⟩ := h₂.exists_cons (by omega)
  let s₃ := { s₂ with submitBuffer := rest }.goto (.submitting [d])
  have e₁ : s.step stockEngine (.shutdown false) = some ((s.startRound stockEngine).goto .threshold) := by
    simp [step, hs, leaveDrain, h.engineState, stockEngine, engine, startRound, online, h.config, stockOptions, options,
      record, goto]
  have e₂ : ((s.startRound stockEngine).goto .threshold).step stockEngine (.threshold none) =
      some ((s.startRound stockEngine).goto .cids) :=
    rfl
  have e₃ : ((s.startRound stockEngine).goto .cids).step stockEngine (.cids none 0) = some s₁ :=
    rfl
  have e₄ : s₁.step stockEngine (.search <| some ({ bestGraph := none, valid := false, iterationsUsed := 0 }, threeFound)) =
      some s₃ := by
    have ho : s₂.online stockEngine := by simp [online, h₂.config, stockOptions, options, stockEngine, engine]
    have hn : min s₂.submitBuffer.length s₂.batchSize = 1 := by
      rw [h₂.length, batchSize, h₂.config]
      simp [stockOptions]
    show some (s₂.startSubmit stockEngine) = _
    rw [startSubmit, if_pos ho, hn, hb]
    rfl
  refine ⟨s₃, ?_, d, rfl, h₂.engineState, h₂.config, h₂.knownCids, h₂.serverCids, h₂.dashSentCids, h₂.gate, ?_, ?_⟩
  · simp only [stockSearch, Machine.execute_cons, e₁, e₂, e₃, e₄, Option.bind_some]
    rfl
  · have := h₂.length
    rw [hb] at this
    exact Nat.succ.inj this
  · intro cid
    refine (List.Sublist.count_le cid <| List.Sublist.map _ ?_).trans <| h₂.count cid
    rw [hb]
    exact List.sublist_cons_self ..

theorem stock_rest {k : Nat} {d : ScoredDiscovery} (hs : s.stage = .submitting [d])
    (h : s.Stock threeCids (2 * k + 2) (k + 1)) (hk : k < 250) :
    ∃ s' ∈ Machine.execute (step stockEngine) s stockRest, s'.stage = .top ∧ s'.Stock ∅ (2 * (k + 1)) (k + 1) := by
  let s₁ := s.record [.submitted d.cid false]
  have e₁ : s.step stockEngine (.submit false) = some (s₁.goto .trim) := by
    have : ¬500 < s.submitBuffer.length := by rw [h.length]; omega
    simp [step, hs, finishSubmit, submitNext, capBuffer, record, this, s₁]
  have e₂ : (s₁.goto .trim).step stockEngine (.trim threeCids ∅ ∅) = some ({ s₁ with knownCids := ∅ }.goto .afterRound) := by
    simp [step, goto, trimCids, trimmed, s₁, record, h.knownCids, h.serverCids, h.dashSentCids, h.config, stockOptions, options,
      card_threeCids]
  refine ⟨{ s₁ with knownCids := ∅ }.goto .top, ?_, rfl, h.engineState, h.config, rfl, h.serverCids, h.dashSentCids, h.gate,
    h.length, h.count⟩
  simp only [stockRest, Machine.execute_cons, e₁, e₂, Option.bind_some]
  rfl

theorem stock : (k : Nat) → k ≤ 250 →
    ∃ s ∈ Machine.execute (step stockEngine) (init stockOptions) (List.replicate k (stockSearch ++ stockRest)).flatten,
      s.stage = .top ∧ s.Stock ∅ (2 * k) k
  | 0, _ => ⟨_, rfl, rfl, rfl, rfl, rfl, rfl, rfl, rfl, rfl, by simp [init]⟩
  | k + 1, hk => by
    obtain ⟨s, e, hs, h⟩ := stock k (by omega)
    obtain ⟨s₁, e₁, d, hs₁, h₁⟩ := stock_search hs h
    obtain ⟨s₂, e₂, h₂⟩ := stock_rest hs₁ h₁ (by omega)
    refine ⟨s₂, ?_, h₂⟩
    rw [List.replicate_succ', List.flatten_append, Machine.execute_append, e, List.flatten_singleton, Option.bind_some,
      Machine.execute_append, e₁]
    exact e₂

-- After 250 rounds, the next one ends with 502 discoveries in the buffer, and at most 251 of them are of
-- one graph. Its submission is in vain, too.
theorem exists_stock : ∃ s s' d, Machine.Run (step stockEngine) (fun _ _ => True) (init stockOptions) s ∧
    s.stage = .submitting [d] ∧ s.Stock threeCids 502 251 ∧ 500 < s.submitBuffer.length ∧
    s.step stockEngine (.submit false) = some s' := by
  obtain ⟨s, e, hs, h⟩ := stock 250 (by omega)
  obtain ⟨s₁, e₁, d, hs₁, h₁⟩ := stock_search hs h
  have e₁ : Machine.execute (step stockEngine) (init stockOptions)
      ((List.replicate 250 (stockSearch ++ stockRest)).flatten ++ stockSearch) = some s₁ := by
    rw [Machine.execute_append, e]
    exact e₁
  obtain ⟨s', e'⟩ : ∃ s', s₁.step stockEngine (.submit false) = some s' := by simp [step, hs₁]
  exact ⟨s₁, s', d, Machine.run_of_execute e₁, hs₁, h₁, by rw [h₁.length]; decide, e'⟩

theorem stock_not_equal {size k : Nat} {known : Finset GraphCid} (h : s.Stock known size k) (hr : Ranked s.submitBuffer)
    (hk : k < size) : ¬∀ a ∈ s.submitBuffer, ∀ b ∈ s.submitBuffer, a.score.cmp b.score = .eq := by
  intro he
  obtain ⟨d, rest, hb⟩ := h.exists_cons (by omega)
  have hd : d ∈ s.submitBuffer := by simp [hb]
  have hc : ∀ cid ∈ s.submitBuffer.map (·.cid), d.cid = cid := by
    intro cid hm
    obtain ⟨a, ha, rfl⟩ := List.mem_map.mp hm
    have := cmp_total_and_compare_toScoreBytes (hr.valid d hd) (hr.valid a ha) (hr.valid a ha) |>.2.2.1.mp (he d hd a ha)
    rw [← hr.cid d hd, ← hr.cid a ha]
    exact this.cid
  have := h.count d.cid
  rw [List.count_eq_length.mpr hc, List.length_map, h.length] at this
  omega

theorem cap_keeps_best_iff_stock :
    ∃ s s', Machine.Run (step stockEngine) (fun _ _ => True) (init stockOptions) s ∧ 500 < s.submitBuffer.length ∧
      s.step stockEngine (.submit false) = some s' ∧
      (KeepsBest s.submitBuffer s'.submitBuffer ↔
        ∀ a ∈ s.submitBuffer, ∀ b ∈ s.submitBuffer, a.score.cmp b.score = .eq) := by
  obtain ⟨s, s', d, r, hs, h, hl, e⟩ := exists_stock
  exact ⟨s, s', r, hl, e, cap_keeps_best_iff _ positiveOrder_stockEngine _ r hs (.inl rfl) hl e⟩

-- The cap drops discoveries that are better than some that it keeps.
theorem cap_drops_best :
    ∃ s s', Machine.Run (step stockEngine) (fun _ _ => True) (init stockOptions) s ∧
      (∃ d, s.stage = .submitting [d]) ∧ 500 < s.submitBuffer.length ∧
      s.step stockEngine (.submit false) = some s' ∧ ¬KeepsBest s.submitBuffer s'.submitBuffer := by
  obtain ⟨s, s', d, r, hs, h, hl, e⟩ := exists_stock
  have hr := ranked_run positiveOrder_stockEngine r
  refine ⟨s, s', r, ⟨d, hs⟩, hl, e, ?_⟩
  rw [submitBuffer_capped hs (.inl rfl) hl e, keepsBest_iff hr hl]
  exact stock_not_equal h hr (by decide)

end Stock

end EngineState
