import Extremal.Worker.Theorems.Engine

open Lexicographic

namespace EngineState

variable {setup : EngineSetup} {s s' : EngineState} {input : EngineInput} {cid : GraphCid}
  {discoveries : List RawDiscovery} {batch : List ScoredDiscovery}

section Collect

theorem cidsOf_append (l l' : List ScoredDiscovery) : cidsOf (l ++ l') = cidsOf l ∪ cidsOf l' := by
  simp [cidsOf]

theorem cidsOf_cons (d : ScoredDiscovery) (l : List ScoredDiscovery) : cidsOf (d :: l) = insert d.cid (cidsOf l) := by
  simp [cidsOf]

theorem cidsOf_concat (l : List ScoredDiscovery) (d : ScoredDiscovery) :
    cidsOf (l ++ [d]) = insert d.cid (cidsOf l) := by
  simp [cidsOf, Finset.union_comm]

def cidOf (setup : EngineSetup) (discovery : RawDiscovery) : GraphCid :=
  computeCid setup.lib (canonicalForm setup.lib discovery.graph).1

-- Neither the CIDs of the server nor the gate stand against the discovery.
def worthwhile (setup : EngineSetup) (s : EngineState) (discovery : RawDiscovery) : Bool :=
  cidOf setup discovery ∉ s.serverCids ∧
  !s.gate.drops ⟨(Engine.score setup.lib s.config.n setup.maxK discovery.graph).toScoreBytes setup.maxK⟩

-- The CIDs that a round accepts from the discoveries of its search.
def freshCids (setup : EngineSetup) (s : EngineState) (discoveries : List RawDiscovery) : Finset GraphCid :=
  ((discoveries.filter (s.worthwhile setup)).map (cidOf setup)).toFinset \ s.knownCids

theorem freshCids_disjoint : Disjoint (s.knownCids ∪ s.serverCids) (s.freshCids setup discoveries) := by
  rw [Finset.disjoint_right]
  intro cid hf
  have ⟨hm, hk⟩ := Finset.mem_sdiff.mp hf
  have ⟨discovery, hd, e⟩ := List.mem_map.mp <| List.mem_toFinset.mp hm
  have hw := (List.mem_filter.mp hd).2
  simp only [worthwhile, e, decide_eq_true_eq] at hw
  exact Finset.notMem_union.mpr ⟨hk, hw.1⟩

structure Collected.Of (setup : EngineSetup) (s : EngineState) (discoveries : List RawDiscovery) (c : Collected) :
    Prop where
  knownCids : c.knownCids = s.knownCids ∪ cidsOf c.newScored
  newScored : cidsOf c.newScored = s.freshCids setup discoveries
  nodup     : (c.newScored.map (·.cid)).Nodup

@[simp]
theorem knownCids_sendDiscovery {c : Collected} : (c.sendDiscovery setup cid).knownCids = c.knownCids := by
  rw [Collected.sendDiscovery]
  split <;> rfl

@[simp]
theorem newScored_sendDiscovery {c : Collected} : (c.sendDiscovery setup cid).newScored = c.newScored := by
  rw [Collected.sendDiscovery]
  split <;> rfl

theorem collectOne_cases (setup : EngineSetup) (s : EngineState) (c : Collected) (discovery : RawDiscovery) :
    let c' := s.collectOne setup c discovery
    let cid := cidOf setup discovery
    cid ∉ c.knownCids ∧ s.worthwhile setup discovery ∧ c'.knownCids = insert cid c.knownCids ∧
      (∃ d : ScoredDiscovery, c'.newScored = c.newScored ++ [d] ∧ d.cid = cid) ∨
    (cid ∈ c.knownCids ∨ ¬s.worthwhile setup discovery) ∧ c'.knownCids = c.knownCids ∧
      c'.newScored = c.newScored := by
  simp only [collectOne, worthwhile, knownCids_sendDiscovery]
  split
  case isTrue hk => exact .inr ⟨.inl hk, knownCids_sendDiscovery, newScored_sendDiscovery⟩
  case isFalse hk =>
    split
    case isTrue hs => exact .inr ⟨.inr (by simp_all [cidOf]), knownCids_sendDiscovery, newScored_sendDiscovery⟩
    case isFalse hs =>
      split
      case isTrue hd => exact .inr ⟨.inr (by simp [hd]), knownCids_sendDiscovery, newScored_sendDiscovery⟩
      case isFalse hd => exact .inl ⟨hk, by simp_all [cidOf], rfl, _, by rw [newScored_sendDiscovery], rfl⟩

theorem freshCids_concat {discovery : RawDiscovery} : s.freshCids setup (discoveries ++ [discovery]) =
    if s.worthwhile setup discovery ∧ cidOf setup discovery ∉ s.knownCids then
      insert (cidOf setup discovery) (s.freshCids setup discoveries)
    else s.freshCids setup discoveries := by
  ext cid
  by_cases hw : s.worthwhile setup discovery
  all_goals by_cases hk : cidOf setup discovery ∈ s.knownCids
  all_goals simp only [freshCids, List.filter_append, List.map_append, List.toFinset_append]
  all_goals simp [hw, hk]
  all_goals grind

-- A round accepts each new CID once.
theorem collect_of : Collected.Of setup s discoveries (s.collect setup discoveries) := by
  induction discoveries using List.reverseRecOn
  case nil => exact ⟨by simp [collect, cidsOf], by simp [collect, cidsOf, freshCids], by simp [collect]⟩
  case append_singleton discoveries discovery hi =>
    rw [collect, List.foldl_concat, ← collect]
    have hn : cidsOf _ = _ := hi.newScored
    have hf := @freshCids_concat setup s discoveries discovery
    cases collectOne_cases setup s (s.collect setup discoveries) discovery
    case inl h =>
      obtain ⟨hk, hw, hk', d, hn', hd⟩ := h
      rw [hi.knownCids, Finset.mem_union, not_or] at hk
      rw [if_pos ⟨hw, hk.1⟩] at hf
      constructor
      case knownCids => rw [hk', hn', hi.knownCids, cidsOf_concat, hd, Finset.union_insert]
      case newScored => rw [hn', hf, cidsOf_concat, hd, hn]
      case nodup =>
        rw [hn', List.map_append, List.nodup_append_comm]
        exact List.nodup_cons.mpr ⟨by simpa [hd] using hk.2, hi.nodup⟩
    case inr h =>
      obtain ⟨hr, hk', hn'⟩ := h
      constructor
      case knownCids => rw [hk', hn', hi.knownCids]
      case nodup     => rw [hn']; exact hi.nodup
      case newScored =>
        rw [hn', hf, hn]
        split
        case isFalse => rfl
        case isTrue hw =>
          have hr := hr.resolve_right <| not_not_intro hw.1
          rw [hi.knownCids, Finset.mem_union, hn] at hr
          exact (Finset.insert_eq_of_mem <| hr.resolve_left hw.2).symm

end Collect

section Steps

theorem submitNext_cases (s : EngineState) (toSubmit : List ScoredDiscovery) :
    toSubmit = [] ∧ s.submitNext toSubmit = s.capBuffer.goto .trim ∨
    toSubmit ≠ [] ∧ s.submitNext toSubmit = s.goto (.submitting toSubmit) := by
  cases toSubmit
  case nil  => exact .inl ⟨rfl, rfl⟩
  case cons => exact .inr ⟨by simp, rfl⟩

-- The cap drops the first discoveries of the buffer and lets go of their CIDs.
theorem capBuffer_cases (s : EngineState) :
    s.capBuffer = s ∨
    ∃ dropped kept, s.submitBuffer = dropped ++ kept ∧
      s.capBuffer = { s with submitBuffer := kept, knownCids := s.knownCids \ cidsOf dropped } := by
  rw [capBuffer]
  split
  case isTrue  => exact .inr ⟨_, _, (List.take_append_drop ..).symm, rfl⟩
  case isFalse => exact .inl rfl

theorem startSubmit_cases (setup : EngineSetup) (s : EngineState) :
    s.startSubmit setup = s.goto .trim ∨
    ∃ toSubmit rest, s.submitBuffer = toSubmit ++ rest ∧
      s.startSubmit setup = { s with submitBuffer := rest }.submitNext toSubmit := by
  rw [startSubmit]
  split
  case isTrue  => exact .inr ⟨_, _, (List.take_append_drop ..).symm, rfl⟩
  case isFalse => exact .inl rfl

theorem perm_addToBuffer : (s.addToBuffer setup discoveries).submitBuffer.Perm
    (s.submitBuffer ++ (s.collect setup discoveries).newScored) :=
  List.perm_insertionSort ..

theorem cidsOf_addToBuffer : cidsOf (s.addToBuffer setup discoveries).submitBuffer =
    cidsOf s.submitBuffer ∪ s.freshCids setup discoveries := by
  rw [cidsOf, List.toFinset_eq_of_perm _ _ <| perm_addToBuffer.map _, ← cidsOf, cidsOf_append, collect_of.newScored]

theorem knownCids_addToBuffer : (s.addToBuffer setup discoveries).knownCids =
    s.knownCids ∪ s.freshCids setup discoveries := by
  rw [← collect_of.newScored, ← collect_of.knownCids]
  rfl

theorem SameCids.accepted (h : s.SameCids s') : s'.accepted = s.accepted := by
  have ⟨events, hl, he⟩ := h.log
  have hn := List.filterMap_eq_nil_iff.mpr fun e hm => EngineEvent.acceptedCid_of_isControl (he e hm)
  simp [EngineState.accepted, hl, hn]

theorem SameCids.submittedOk (h : s.SameCids s') : s'.submittedOk = s.submittedOk := by
  have ⟨events, hl, he⟩ := h.log
  have hn := List.filterMap_eq_nil_iff.mpr fun e hm => EngineEvent.submittedCid_of_isControl (he e hm)
  simp [EngineState.submittedOk, hl, hn]

theorem accepted_addToBuffer : (s.addToBuffer setup discoveries).accepted =
    s.accepted ∪ s.freshCids setup discoveries := by
  rw [← collect_of.newScored]
  simp [accepted, addToBuffer, record, cidsOf, List.filterMap_map, EngineEvent.acceptedCid]

theorem submittedOk_addToBuffer : (s.addToBuffer setup discoveries).submittedOk = s.submittedOk := by
  simp [submittedOk, addToBuffer, record, List.filterMap_map, EngineEvent.submittedCid]

theorem accepted_record_submitted {ok : Bool} : (s.record [.submitted cid ok]).accepted = s.accepted := by
  simp [accepted, record, EngineEvent.acceptedCid]

theorem submittedOk_record_submitted {ok : Bool} : (s.record [.submitted cid ok]).submittedOk =
    if ok then insert cid s.submittedOk else s.submittedOk := by
  cases ok <;> simp [submittedOk, record, EngineEvent.submittedCid, Finset.union_comm]

end Steps

section Lost

-- Every accepted CID waits for its submission, has been submitted or may be found again.
def Keeps (s : EngineState) (batch : List ScoredDiscovery) : Prop :=
  ∀ cid ∈ s.accepted, cid ∈ s.knownCids → cid ∈ cidsOf (batch ++ s.submitBuffer) ∪ s.submittedOk

-- A call of `submit` loses the discovery, if it fails. A sync lists no CID of a discovery that the cap of
-- the buffer dropped.
def losesNothing (setup : EngineSetup) (s : EngineState) : EngineInput → Prop
  | .submit ok          => ok
  | .cids (some cids) _ => ∀ cid ∈ cids.filterMap (GraphCid.fromHex setup.hex),
    cid ∈ s.accepted → cid ∈ cidsOf s.submitBuffer ∪ s.submittedOk
  | _                   => True

instance : DecidablePred (losesNothing setup s)
  | .submit ok          => inferInstanceAs <| Decidable (ok = true)
  | .cids (some cids) _ => inferInstanceAs <| Decidable (∀ cid ∈ cids.filterMap _, _)
  | .cids none _ | .shutdown _ | .tryRecv _ | .recv _ | .threshold _ | .search _ | .trim .. => .isTrue trivial

theorem Keeps.capBuffer (h : s.Keeps []) : s.capBuffer.Keeps [] := by
  rcases capBuffer_cases s with e | ⟨dropped, kept, hb, e⟩
  case inl => rwa [e]
  case inr =>
    rw [e]
    intro cid ha hk
    have ⟨hk, hd⟩ := Finset.mem_sdiff.mp hk
    have hm := h cid ha hk
    simp only [List.nil_append, hb, cidsOf_append, Finset.mem_union] at hm ⊢
    exact hm.imp_left fun hm => hm.resolve_left hd

theorem Keeps.submitNext (h : s.Keeps batch) : (s.submitNext batch).Keeps (s.submitNext batch).stage.batch := by
  rcases submitNext_cases s batch with ⟨rfl, e⟩ | ⟨_, e⟩
  case inl => rw [e]; exact h.capBuffer
  case inr => rw [e]; exact h

theorem Keeps.startSubmit (h : s.Keeps []) : (s.startSubmit setup).Keeps (s.startSubmit setup).stage.batch := by
  rcases startSubmit_cases setup s with e | ⟨toSubmit, rest, hb, e⟩
  case inl => rw [e]; exact h
  case inr =>
    rw [e]
    refine Keeps.submitNext (fun cid ha hk => ?_)
    rw [← hb]
    exact h cid ha hk

theorem Keeps.addToBuffer (h : s.Keeps []) : (s.addToBuffer setup discoveries).Keeps [] := by
  intro cid ha hk
  rw [accepted_addToBuffer] at ha
  rw [knownCids_addToBuffer] at hk
  rw [List.nil_append, cidsOf_addToBuffer, submittedOk_addToBuffer]
  have h := h cid
  simp only [List.nil_append, Finset.mem_union] at h ha hk ⊢
  tauto

theorem Keeps.syncCids {cids : List String} {now : Nat} (h : s.Keeps [])
    (hl : s.losesNothing setup (.cids (some cids) now)) : (s.syncCids setup cids now).Keeps [] := by
  intro cid ha hk
  cases Finset.mem_union.mp hk
  case inl hk => exact h cid ha hk
  case inr hm => exact hl cid (List.mem_toFinset.mp hm) ha

theorem Keeps.finishSubmit {discovery : ScoredDiscovery} (h : s.Keeps (discovery :: batch)) :
    (s.finishSubmit discovery batch true).Keeps (s.finishSubmit discovery batch true).stage.batch := by
  refine Keeps.submitNext (fun cid ha hk => ?_)
  have ha : cid ∈ (s.record [.submitted discovery.cid true]).accepted := ha
  rw [accepted_record_submitted] at ha
  have hm := h cid ha hk
  show cid ∈ _ ∪ (s.record [.submitted discovery.cid true]).submittedOk
  rw [submittedOk_record_submitted]
  simp only [List.cons_append, cidsOf_cons, Finset.mem_union, Finset.mem_insert, if_true] at hm ⊢
  tauto

theorem Keeps.trimCids {known server dashSent : Finset GraphCid} (h : s.Keeps [])
    (e : s.trimCids known server dashSent = some s') : s'.Keeps [] := by
  have ⟨k, v, d, hk, _, _, e⟩ := trimCids_spec e
  subst e
  exact fun cid ha hm => h cid ha <| trimmed_subset hk hm

theorem keeps_step (h : s.Keeps s.stage.batch) (hl : s.losesNothing setup input) (e : s.step setup input = some s') :
    s'.Keeps s'.stage.batch := by
  cases step_cases e
  case control hb hs hb' =>
    rw [EngineStage.batch_of_settled hb] at h
    rw [EngineStage.batch_of_settled_or_search hb']
    intro cid
    rw [hs.accepted, hs.submitBuffer, hs.knownCids, hs.submittedOk]
    exact h cid
  case sync hs =>
    rw [hs] at h
    exact h.syncCids hl
  case panic hs =>
    rw [hs] at h
    exact h
  case search hs =>
    rw [hs] at h
    exact h.addToBuffer.startSubmit
  case submit discovery rest ok hs =>
    rw [hs] at h
    obtain rfl : ok = true := hl
    exact h.finishSubmit
  case trim known server dashSent t hs ht =>
    rw [hs] at h
    have h : t.Keeps [] := h.trimCids ht
    exact h

-- Whenever no batch is under way, and hence at the end of each round, an accepted CID is in the buffer,
-- has been submitted or is unknown.
theorem no_discovery_lost (setup : EngineSetup) (config : EngineConfig)
    (r : Machine.Run (step setup) (losesNothing setup) (init config) s) (hs : s.stage.betweenRounds) :
    ∀ cid ∈ s.accepted, cid ∈ cidsOf s.submitBuffer ∨ cid ∈ s.submittedOk ∨ cid ∉ s.knownCids := by
  have h : s.Keeps s.stage.batch := by
    refine r.invariant (fun s => s.Keeps s.stage.batch) keeps_step (fun cid ha => ?_)
    simp [accepted, init] at ha
  rw [EngineStage.batch_of_settled <| EngineStage.settled_of_betweenRounds hs] at h
  intro cid ha
  by_cases hk : cid ∈ s.knownCids
  case neg => exact .inr <| .inr hk
  case pos => exact (Finset.mem_union.mp <| h cid ha hk).imp_right .inl

open ReferenceEngine in
theorem path3_not_lost :
    ∃ s, Machine.Run (step <| engine false) (losesNothing <| engine false) (init <| options false 10000) s ∧
      path3Cid ∈ s.accepted ∧ (path3Cid ∈ cidsOf s.submitBuffer ∨ path3Cid ∈ s.submittedOk ∨ path3Cid ∉ s.knownCids) := by
  let step' := Machine.guarded (step <| engine false) (losesNothing <| engine false)
  have ⟨s, e, hs, ha⟩ : ∃ s ∈ Machine.execute step' (init <| options false 10000)
      [.shutdown false, .threshold none, .cids none 0, path3Found, .submit true, .trim ∅ ∅ ∅],
      s.stage.betweenRounds ∧ path3Cid ∈ s.accepted := by decide +kernel
  have r := Machine.Run.of_guarded e
  exact ⟨s, r, ha, no_discovery_lost _ _ r hs _ ha⟩

-- A failed call ends the batch. Its discoveries have left the buffer, but not the known CIDs.
open ReferenceEngine in
theorem failed_submit_loses_discovery :
    ∃ s ∈ Machine.execute (step <| engine false) (init <| options false 10000)
        [.shutdown false, .threshold none, .cids none 0, path3Found, .submit false, .trim ∅ ∅ ∅],
      s.stage.betweenRounds ∧ path3Cid ∈ s.accepted ∧
      ¬(path3Cid ∈ cidsOf s.submitBuffer ∨ path3Cid ∈ s.submittedOk ∨ path3Cid ∉ s.knownCids) := by
  decide +kernel

end Lost

section Twice

-- The second event is no call of `submit` for a CID that the first one submitted successfully.
def NotAgain (e e' : EngineEvent) : Prop :=
  ∀ cid ∈ e.submittedCid, cid ∉ e'.calledCid

instance : DecidableRel NotAgain :=
  fun e e' => inferInstanceAs <| Decidable (∀ cid ∈ e.submittedCid, cid ∉ e'.calledCid)

theorem notAgain_append {log events : List EngineEvent} (h : log.Pairwise NotAgain)
    (he : ∀ e ∈ events, e.calledCid = none) : (log ++ events).Pairwise NotAgain := by
  have hn (e e' : EngineEvent) (hm : e' ∈ events) : NotAgain e e' := by simp [NotAgain, he e' hm]
  refine List.pairwise_append.mpr ⟨h, ?_, fun e _ => hn e⟩
  exact List.pairwise_iff_forall_sublist.mpr fun hs => hn _ _ <| hs.subset (by simp)

-- No CID waits twice or after its submission. The sets tell which CIDs were seen.
structure Deduped (s : EngineState) (batch : List ScoredDiscovery) : Prop where
  nodup  : ((batch ++ s.submitBuffer).map (·.cid)).Nodup
  unsent : Disjoint (cidsOf (batch ++ s.submitBuffer)) s.submittedOk
  seen   : cidsOf (batch ++ s.submitBuffer) ∪ s.submittedOk ⊆ s.knownCids ∪ s.serverCids
  once   : s.log.Pairwise NotAgain

-- A trim that removes a CID from both sets removes none that waits or has been submitted.
def forgetsNothing (s : EngineState) : EngineInput → Prop
  | .trim known server dashSent => ∀ s' ∈ s.trimCids known server dashSent,
    cidsOf s.submitBuffer ∪ s.submittedOk ⊆ s'.knownCids ∪ s'.serverCids
  | _ => True

instance : DecidablePred s.forgetsNothing
  | .trim .. => inferInstanceAs <| Decidable (∀ s' ∈ s.trimCids .., _)
  | .submit _ | .cids .. | .shutdown _ | .tryRecv _ | .recv _ | .threshold _ | .search _ => .isTrue trivial

theorem cidsOf_subset {l l' : List ScoredDiscovery} (h : l.Sublist l') : cidsOf l ⊆ cidsOf l' := by
  intro cid hm
  have ⟨d, hd, e⟩ := mem_cidsOf.mp hm
  exact mem_cidsOf.mpr ⟨d, h.subset hd, e⟩

theorem Deduped.sublist {batch' : List ScoredDiscovery} (h : s.Deduped batch) (hs : batch'.Sublist batch) :
    s.Deduped batch' := by
  have hs : (batch' ++ s.submitBuffer).Sublist (batch ++ s.submitBuffer) := hs.append_right _
  constructor
  case nodup  => exact h.nodup.sublist <| hs.map _
  case unsent => exact h.unsent.mono_left <| cidsOf_subset hs
  case seen   => exact (Finset.union_subset_union_left <| cidsOf_subset hs).trans h.seen
  case once   => exact h.once

theorem Deduped.capBuffer (h : s.Deduped []) : s.capBuffer.Deduped [] := by
  rcases capBuffer_cases s with e | ⟨dropped, kept, hb, e⟩
  case inl => rwa [e]
  case inr =>
    have ⟨hnodup, hunsent, hseen, honce⟩ := h
    rw [List.nil_append, hb] at hnodup hunsent hseen
    rw [cidsOf_append] at hunsent hseen
    rw [List.map_append, List.nodup_append'] at hnodup
    have ⟨_, hkept, hd⟩ := hnodup
    rw [e]
    constructor
    case nodup  => exact hkept
    case unsent => exact hunsent.mono_left Finset.subset_union_right
    case once   => exact honce
    case seen =>
      have hd : Disjoint (cidsOf dropped) (cidsOf kept ∪ s.submittedOk) :=
        (List.disjoint_toFinset_iff_disjoint.mpr hd).sup_right <| hunsent.mono_left Finset.subset_union_left
      intro cid hm
      rw [Finset.union_assoc] at hseen
      exact (Finset.mem_union.mp <| hseen <| Finset.mem_union_right _ hm).elim
        (fun hk => Finset.mem_union_left _ <| Finset.mem_sdiff.mpr ⟨hk, fun hm' => Finset.disjoint_left.mp hd hm' hm⟩)
        (fun hv => Finset.mem_union_right _ hv)

theorem Deduped.submitNext (h : s.Deduped batch) : (s.submitNext batch).Deduped (s.submitNext batch).stage.batch := by
  rcases submitNext_cases s batch with ⟨rfl, e⟩ | ⟨_, e⟩
  case inl =>
    rw [e]
    exact { h.capBuffer with }
  case inr =>
    rw [e]
    exact { h with }

theorem Deduped.startSubmit (h : s.Deduped []) :
    (s.startSubmit setup).Deduped (s.startSubmit setup).stage.batch := by
  rcases startSubmit_cases setup s with e | ⟨toSubmit, rest, hb, e⟩
  case inl =>
    rw [e]
    exact { h with }
  case inr =>
    rw [e]
    have ⟨hnodup, hunsent, hseen, honce⟩ := h
    rw [List.nil_append, hb] at hnodup hunsent hseen
    exact Deduped.submitNext ⟨hnodup, hunsent, hseen, honce⟩

theorem Deduped.addToBuffer (h : s.Deduped []) : (s.addToBuffer setup discoveries).Deduped [] := by
  have ⟨hnodup, hunsent, hseen, honce⟩ := h
  rw [List.nil_append] at hnodup hunsent hseen
  have hc : Collected.Of setup s discoveries _ := collect_of
  have hf : Disjoint _ (s.freshCids setup discoveries) := freshCids_disjoint.mono_left hseen
  constructor
  case nodup =>
    refine (perm_addToBuffer.map _).nodup_iff.mpr ?_
    rw [List.map_append, List.nodup_append']
    refine ⟨hnodup, hc.nodup, List.disjoint_toFinset_iff_disjoint.mp ?_⟩
    exact (hf.mono_left Finset.subset_union_left).mono_right hc.newScored.le
  case unsent =>
    rw [List.nil_append, cidsOf_addToBuffer, submittedOk_addToBuffer]
    exact hunsent.sup_left (hf.mono_left Finset.subset_union_right).symm
  case seen =>
    rw [List.nil_append, cidsOf_addToBuffer, submittedOk_addToBuffer, knownCids_addToBuffer]
    show _ ⊆ _ ∪ s.serverCids
    rw [Finset.union_right_comm, Finset.union_right_comm s.knownCids]
    exact Finset.union_subset_union_left hseen
  case once =>
    refine notAgain_append honce (fun e he => ?_)
    have ⟨_, _, he⟩ := List.mem_map.mp he
    exact he ▸ rfl

theorem Deduped.syncCids {cids : List String} {now : Nat} (h : s.Deduped []) :
    (s.syncCids setup cids now).Deduped [] :=
  { h with
    seen := h.seen.trans <| Finset.union_subset_union Finset.subset_union_left Finset.subset_union_left }

theorem Deduped.record {discovery : ScoredDiscovery} (h : s.Deduped (discovery :: batch)) (ok : Bool) :
    let s := s.record [.submitted discovery.cid ok]
    { s with serverCids := if ok then insert discovery.cid s.serverCids else s.serverCids }.Deduped batch := by
  have ⟨hnodup, hunsent, hseen, honce⟩ := h
  rw [List.cons_append, cidsOf_cons] at hunsent hseen
  have ⟨hd, hnodup⟩ := List.nodup_cons.mp hnodup
  have ⟨hs, hunsent⟩ := Finset.disjoint_insert_left.mp hunsent
  constructor
  case nodup => exact hnodup
  case unsent =>
    show Disjoint _ (s.record [.submitted discovery.cid ok]).submittedOk
    rw [submittedOk_record_submitted]
    cases ok
    case false => exact hunsent
    case true  => exact Finset.disjoint_insert_right.mpr ⟨fun hm => hd <| List.mem_toFinset.mp hm, hunsent⟩
  case seen =>
    show _ ∪ (s.record [.submitted discovery.cid ok]).submittedOk ⊆ _
    rw [submittedOk_record_submitted]
    have hseen := (Finset.union_subset_union_left <| Finset.subset_insert _ _).trans hseen
    cases ok
    case false => exact hseen
    case true =>
      show cidsOf (batch ++ s.submitBuffer) ∪ insert discovery.cid s.submittedOk ⊆
        s.knownCids ∪ insert discovery.cid s.serverCids
      rw [Finset.union_insert, Finset.union_insert]
      exact Finset.insert_subset_insert _ hseen
  case once =>
    refine List.pairwise_append.mpr ⟨honce, List.pairwise_singleton .., fun e he e' he' cid hc hc' => ?_⟩
    rw [List.mem_singleton.mp he'] at hc'
    cases hc'
    exact hs <| List.mem_toFinset.mpr <| List.mem_filterMap.mpr ⟨e, he, hc⟩

theorem Deduped.finishSubmit {discovery : ScoredDiscovery} {ok : Bool} (h : s.Deduped (discovery :: batch)) :
    (s.finishSubmit discovery batch ok).Deduped (s.finishSubmit discovery batch ok).stage.batch := by
  cases ok
  case false => exact ((h.record false).sublist <| List.nil_sublist _).submitNext
  case true  => exact (h.record true).submitNext

theorem Deduped.trimCids {known server dashSent : Finset GraphCid} (h : s.Deduped [])
    (hf : s.forgetsNothing (.trim known server dashSent)) (e : s.trimCids known server dashSent = some s') :
    s'.Deduped [] := by
  have hseen := hf s' e
  have ⟨k, v, d, _, _, _, e⟩ := trimCids_spec e
  subst e
  exact { h with seen := hseen }

theorem deduped_step (h : s.Deduped s.stage.batch) (hf : s.forgetsNothing input)
    (e : s.step setup input = some s') : s'.Deduped s'.stage.batch := by
  cases step_cases e
  case control hb hs hb' =>
    have ⟨hnodup, hunsent, hseen, honce⟩ := h
    rw [EngineStage.batch_of_settled hb, ← hs.submitBuffer] at hnodup hunsent hseen
    rw [EngineStage.batch_of_settled_or_search hb']
    constructor
    case nodup  => exact hnodup
    case unsent => rwa [hs.submittedOk]
    case seen   => rwa [hs.submittedOk, hs.knownCids, hs.serverCids]
    case once =>
      have ⟨events, hl, he⟩ := hs.log
      rw [hl]
      exact notAgain_append honce fun e hm => EngineEvent.calledCid_of_isControl <| he e hm
  case sync cids now hs =>
    rw [hs] at h
    have h : (s.syncCids setup cids now).Deduped [] := h.syncCids
    exact { h with }
  case panic hs =>
    rw [hs] at h
    exact { h with }
  case search hs =>
    rw [hs] at h
    exact h.addToBuffer.startSubmit
  case submit discovery rest ok hs =>
    rw [hs] at h
    exact h.finishSubmit
  case trim known server dashSent t hs ht =>
    rw [hs] at h
    exact { h.trimCids hf ht with }

-- The buffer holds each CID once, and after a successful call of `submit` for a CID there is no second call.
theorem no_discovery_submitted_twice (setup : EngineSetup) (config : EngineConfig)
    (r : Machine.Run (step setup) forgetsNothing (init config) s) :
    (s.submitBuffer.map (·.cid)).Nodup ∧ s.log.Pairwise NotAgain := by
  have h : s.Deduped s.stage.batch := by
    refine r.invariant (fun s => s.Deduped s.stage.batch) deduped_step ?_
    constructor <;> simp [init, EngineStage.batch, submittedOk, cidsOf]
  exact ⟨(h.sublist <| List.nil_sublist _).nodup, h.once⟩

open ReferenceEngine in
theorem path3_submitted_once :
    ∃ s, Machine.Run (step <| engine false) forgetsNothing (init <| options false 10000) s ∧
      s.log.filterMap (·.calledCid) = [path3Cid] ∧
      (s.submitBuffer.map (·.cid)).Nodup ∧ s.log.Pairwise NotAgain := by
  let step' := Machine.guarded (step <| engine false) forgetsNothing
  have ⟨s, e, h⟩ : ∃ s ∈ Machine.execute step' (init <| options false 10000)
      [.shutdown false, .threshold none, .cids none 0, path3Found, .submit true, .trim ∅ ∅ ∅, .shutdown false,
       .shutdown false, .threshold none, .cids none 0, path3Found, .trim ∅ ∅ ∅],
      s.log.filterMap (·.calledCid) = [path3Cid] := by decide +kernel
  have r := Machine.Run.of_guarded e
  exact ⟨s, r, h, no_discovery_submitted_twice _ _ r⟩

-- Without room for a CID, each round trims away what it has submitted.
open ReferenceEngine in
theorem trim_submits_twice :
    ∃ s ∈ Machine.execute (step <| engine false) (init <| options false 0)
        [.shutdown false, .threshold none, .cids none 0, path3Found, .submit true,
         .trim {path3Cid} {path3Cid} ∅, .shutdown false,
         .shutdown false, .threshold none, .cids none 0, path3Found, .submit true],
      s.log.filterMap (·.submittedCid) = [path3Cid, path3Cid] ∧ ¬s.log.Pairwise NotAgain := by
  decide +kernel

end Twice

end EngineState
