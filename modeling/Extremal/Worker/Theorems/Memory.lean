import Extremal.Worker.Theorems.Accounting

namespace EngineState

variable {setup : EngineSetup} {s s' : EngineState} {input : EngineInput} {discoveries : List RawDiscovery}

structure SetsBounded (s : EngineState) : Prop where
  knownCids    : s.knownCids.card ≤ 2 * s.config.maxKnownCids
  serverCids   : s.serverCids.card ≤ s.config.maxKnownCids
  dashSentCids : s.dashSentCids.card ≤ s.config.maxKnownCids

-- The buffer is capped after the batch of a round, the sets are trimmed at its end.
structure Bounded (s : EngineState) : Prop where
  submitBuffer : s.stage.batch = [] → s.submitBuffer.length ≤ 500
  dashSentCids : s.stage.settled ∨ s.stage = .search → s.dashSentCids.card ≤ s.config.maxKnownCids
  sets         : s.stage.settled → s.SetsBounded

-- The number of discoveries that the engine has accepted.
def acceptedCount (s : EngineState) : Nat :=
  (s.log.filterMap (·.acceptedCid)).length

-- There are CIDs to trim.
def Overfull (s : EngineState) : Prop :=
  2 * s.config.maxKnownCids < s.knownCids.card ∨ s.config.maxKnownCids < s.serverCids.card

instance : DecidablePred Overfull :=
  fun _ => inferInstanceAs <| Decidable (_ ∨ _)

-- An engine that does not submit accepts no more discoveries than its buffer may hold, and no search fails in a
-- round whose sync has brought too many CIDs, since such a round skips the trims.
def staysSmall (setup : EngineSetup) (s : EngineState) : EngineInput → Prop
  | .search (some (result, discoveries)) =>
    s.online setup ∨ s.acceptedCount + (s.freshCids setup <| toScore result discoveries).card ≤ 500
  | .search none => ¬s.Overfull
  | _ => True

instance : DecidablePred (s.staysSmall setup)
  | .search (some _) => inferInstanceAs <| Decidable (_ ∨ _)
  | .search none => inferInstanceAs <| Decidable (¬_)
  | .submit _ | .cids .. | .shutdown _ | .tryRecv _ | .recv _ | .threshold _ | .trim .. => .isTrue trivial

theorem Accounted.length_le (h : s.Accounted) : s.submitBuffer.length ≤ s.acceptedCount := by
  have hc := Multiset.card_le_card h
  simp only [Multiset.card_add, Multiset.coe_card, List.length_map, held, List.length_append] at hc
  rw [acceptedCount]
  omega

theorem length_capBuffer : s.capBuffer.submitBuffer.length ≤ 500 := by
  rw [capBuffer]
  split
  case isTrue  => simp only [List.length_drop]; omega
  case isFalse => omega

theorem length_addToBuffer : (s.addToBuffer setup discoveries).submitBuffer.length =
    s.submitBuffer.length + (s.freshCids setup discoveries).card := by
  have hc : Collected.Of setup s discoveries _ := collect_of
  rw [perm_addToBuffer.length_eq, List.length_append, ← hc.newScored, cidsOf, List.toFinset_card_of_nodup hc.nodup,
    List.length_map]

theorem card_trimmed {set drained kept : Finset GraphCid} {limit target : Nat} (ht : target ≤ limit)
    (e : trimmed set limit target drained = some kept) : kept.card ≤ limit := by
  rw [trimmed] at e
  split at e
  case isTrue hl =>
    obtain ⟨⟨hs, hc⟩, e⟩ := Option.ite_none_right_eq_some.mp e
    cases e
    rw [Finset.card_sdiff_of_subset hs]
    omega
  case isFalse =>
    cases e
    omega

-- A round leaves the buffer capped, once its last batch is submitted.
theorem bounded_submitNext (toSubmit : List ScoredDiscovery) : (s.submitNext toSubmit).Bounded := by
  rcases submitNext_cases s toSubmit with ⟨_, e⟩ | ⟨hne, e⟩
  case inl =>
    rw [e]
    exact ⟨fun _ => length_capBuffer, by simp [goto, EngineStage.settled], by simp [goto, EngineStage.settled]⟩
  case inr =>
    rw [e]
    exact ⟨fun hb => absurd hb hne, by simp [goto, EngineStage.settled], by simp [goto, EngineStage.settled]⟩

theorem bounded_startSubmit (h : s.online setup ∨ s.submitBuffer.length ≤ 500) : (s.startSubmit setup).Bounded := by
  rw [startSubmit]
  split
  case isTrue => exact bounded_submitNext _
  case isFalse ho =>
    exact ⟨fun _ => h.resolve_left ho, by simp [goto, EngineStage.settled], by simp [goto, EngineStage.settled]⟩

theorem bounded_step (h : s.Bounded) (ha : s.Accounted) (hs : s.staysSmall setup input)
    (e : s.step setup input = some s') : s'.Bounded := by
  cases step_cases e
  case control hb hc hb' =>
    have hk : s'.SetsBounded := by
      obtain ⟨hk, hv, hd⟩ := h.sets hb
      rw [← hc.maxKnownCids] at hk hv hd
      rw [← hc.knownCids] at hk
      rw [← hc.serverCids] at hv
      rw [← hc.dashSentCids] at hd
      exact ⟨hk, hv, hd⟩
    refine ⟨fun _ => ?_, fun _ => hk.dashSentCids, fun _ => hk⟩
    rw [hc.submitBuffer]
    exact h.submitBuffer <| EngineStage.batch_of_settled hb
  case sync hc =>
    refine ⟨fun _ => h.submitBuffer (by rw [hc]; rfl), fun _ => h.dashSentCids (.inl <| by rw [hc]; rfl), nofun⟩
  case panic hc =>
    have hd : s.dashSentCids.card ≤ s.config.maxKnownCids := h.dashSentCids <| .inr hc
    obtain ⟨hk, hv⟩ := not_or.mp hs
    exact ⟨fun _ => h.submitBuffer (by rw [hc]; rfl), fun _ => hd, fun _ => ⟨not_lt.mp hk, not_lt.mp hv, hd⟩⟩
  case search result discoveries hc =>
    refine bounded_startSubmit ?_
    rw [length_addToBuffer]
    exact hs.imp_right <| (Nat.add_le_add_right ha.length_le _).trans
  case submit discovery rest ok hc =>
    rw [finishSubmit]
    split <;> exact bounded_submitNext _
  case trim known server dashSent t hc ht =>
    obtain ⟨k, v, d, hk, hv, hd, ht⟩ := trimCids_spec ht
    subst ht
    have hd : d.card ≤ s.config.maxKnownCids := card_trimmed (Nat.div_le_self ..) hd
    refine ⟨fun _ => h.submitBuffer (by rw [hc]; rfl), fun _ => hd, fun _ => ⟨?_, ?_, hd⟩⟩
    · exact (card_trimmed (by omega) hk).trans_eq <| Nat.mul_comm ..
    · exact card_trimmed (Nat.div_le_self ..) hv

-- The bounds of the buffer and of the sets between two rounds.
theorem memory_bounded (setup : EngineSetup) (config : EngineConfig)
    (r : Machine.Run (step setup) (staysSmall setup) (init config) s) (hs : s.stage.betweenRounds) :
    s.submitBuffer.length ≤ 500 ∧ s.knownCids.card ≤ 2 * s.config.maxKnownCids ∧
    s.serverCids.card ≤ s.config.maxKnownCids ∧ s.dashSentCids.card ≤ s.config.maxKnownCids := by
  have ⟨h, _⟩ : s.Bounded ∧ s.Accounted := by
    refine r.invariant (fun s => s.Bounded ∧ s.Accounted) (fun ⟨h, ha⟩ hs e => ⟨bounded_step h ha hs e, ha.step e⟩) ?_
    exact ⟨⟨by simp [init], by simp [init], fun _ => ⟨by simp [init], by simp [init], by simp [init]⟩⟩, .init config⟩
  have hs := EngineStage.settled_of_betweenRounds hs
  obtain ⟨hk, hv, hd⟩ := h.sets hs
  exact ⟨h.submitBuffer <| EngineStage.batch_of_settled hs, hk, hv, hd⟩

open ReferenceEngine in
theorem path3_memory_bounded :
    ∃ s, Machine.Run (step <| engine false) (staysSmall <| engine false) (init <| options true 10000) s ∧
      s.submitBuffer.length = 1 ∧ s.submitBuffer.length ≤ 500 ∧ s.knownCids.card ≤ 2 * s.config.maxKnownCids ∧
      s.serverCids.card ≤ s.config.maxKnownCids ∧ s.dashSentCids.card ≤ s.config.maxKnownCids := by
  let step' := Machine.guarded (step <| engine false) (staysSmall <| engine false)
  have ⟨s, e, hs, hl⟩ : ∃ s ∈ Machine.execute step' (init <| options true 10000)
      [.shutdown false, path3Found, .trim ∅ ∅ ∅],
      s.stage.betweenRounds ∧ s.submitBuffer.length = 1 := by decide +kernel
  have r := Machine.Run.of_guarded e
  exact ⟨s, r, hl, memory_bounded _ _ r hs⟩

section Offline

open ReferenceEngine

-- An offline engine without room for a CID after `k` rounds that found the path.
structure Piled (s : EngineState) (k : Nat) : Prop where
  stage        : s.stage = .top
  engineState  : s.engineState = .searching
  config       : s.config = options true 0
  knownCids    : s.knownCids = ∅
  serverCids   : s.serverCids = ∅
  dashSentCids : s.dashSentCids = ∅
  gate         : s.gate = .init
  submitBuffer : s.submitBuffer.length = k

def path3Round : List EngineInput :=
  [.shutdown false, path3Found, .trim {path3Cid} ∅ ∅, .shutdown false]

theorem freshCids_path3 (hk : s.knownCids = ∅) (hv : s.serverCids = ∅) (hg : s.gate = .init) :
    s.freshCids (engine false) [⟨ReferenceNauty.path3, 0⟩] = {path3Cid} := by
  simp [freshCids, worthwhile, hk, hv, hg, Gate.drops, Gate.init, cidOf, path3Cid, engine]

theorem dashSentCids_addToBuffer_path3 :
    (s.addToBuffer (engine false) [⟨ReferenceNauty.path3, 0⟩]).dashSentCids = s.dashSentCids := by
  simp only [addToBuffer, record, collect, List.foldl_cons, List.foldl_nil, collectOne, Collected.sendDiscovery, engine]
  simp only [Bool.false_eq_true, false_and, if_false]
  split <;> first | rfl | (split <;> first | rfl | (split <;> rfl))

theorem piled_round {k : Nat} (h : s.Piled k) :
    ∃ s' ∈ Machine.execute (step <| engine false) s path3Round, s'.Piled (k + 1) := by
  have ⟨hs, he, hc, hk, hv, hd, hg, hb⟩ := h
  let s₁ := (s.startRound (engine false)).goto .search
  let s₂ := s₁.addToBuffer (engine false) [⟨ReferenceNauty.path3, 0⟩]
  have hf : s₁.freshCids (engine false) [⟨ReferenceNauty.path3, 0⟩] = {path3Cid} := freshCids_path3 hk hv hg
  have hk₂ : s₂.knownCids = {path3Cid} := by
    rw [knownCids_addToBuffer, hf, show s₁.knownCids = ∅ from hk]
    rfl
  have hd₂ : s₂.dashSentCids = ∅ := dashSentCids_addToBuffer_path3.trans hd
  have hv₂ : s₂.serverCids = ∅ := hv
  have hc₂ : s₂.config = options true 0 := hc
  have h₁ : s.step (engine false) (.shutdown false) = some s₁ := by
    simp [step, hs, leaveDrain, he, engine, s₁, startRound, online, hc, options, record, goto]
  have h₂ : s₁.step (engine false) path3Found = some (s₂.goto .trim) := by
    simp [step, s₁, s₂, goto, path3Found, finishSearch, toScore, startSubmit, online, startRound, record, addToBuffer, hc,
      options]
  have h₃ : (s₂.goto .trim).step (engine false) (.trim {path3Cid} ∅ ∅) =
      some ({ s₂ with knownCids := ∅ }.goto .afterRound) := by
    simp [step, goto, trimCids, trimmed, hk₂, hv₂, hd₂, hc₂, options]
  refine ⟨{ s₂ with knownCids := ∅ }.goto .top, ?_, rfl, he, hc, rfl, hv, hd₂, hg, ?_⟩
  · simp only [path3Round, Machine.execute_cons, h₁, h₂, h₃, Option.bind_some]
    rfl
  · show s₂.submitBuffer.length = _
    rw [length_addToBuffer, hf, show s₁.submitBuffer.length = k from hb]
    rfl

theorem piled (k : Nat) :
    ∃ s ∈ Machine.execute (step <| engine false) (init <| options true 0) (List.replicate k path3Round).flatten,
      s.Piled k := by
  induction k
  case zero => exact ⟨_, rfl, rfl, rfl, rfl, rfl, rfl, rfl, rfl, rfl⟩
  case succ k hi =>
    have ⟨s, e, h⟩ := hi
    have ⟨s', e', h'⟩ := piled_round h
    refine ⟨s', ?_, h'⟩
    rw [List.replicate_succ', List.flatten_append, Machine.execute_append, e, List.flatten_singleton]
    exact e'

-- The buffer is capped only after a batch was submitted.
theorem offline_buffer_overflows :
    ∃ s ∈ Machine.execute (step <| engine false) (init <| options true 0) (List.replicate 501 path3Round).flatten,
      s.stage.betweenRounds ∧ ¬s.submitBuffer.length ≤ 500 := by
  have ⟨s, e, h⟩ := piled 501
  exact ⟨s, e, by rw [h.stage]; rfl, by rw [h.submitBuffer]; decide⟩

end Offline

end EngineState
