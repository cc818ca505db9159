import Extremal.Worker.Theorems.Best

-- A call of `submit` that fails.
def EngineInput.failsSubmit : EngineInput → Bool
  | .submit ok => !ok
  | _          => false

namespace EngineState

variable {setup : EngineSetup} {s s' : EngineState} {input : EngineInput} {discoveries : List RawDiscovery}
  {batch : List ScoredDiscovery}

-- The discoveries that wait for their submission.
def held (s : EngineState) : List ScoredDiscovery :=
  s.stage.batch ++ s.submitBuffer

-- The discoveries that a step accepts.
def newlyAccepted (setup : EngineSetup) (s : EngineState) (input : EngineInput) : List ScoredDiscovery :=
  match s.stage, input with
  | .search, .search (some (result, discoveries)) => (s.collect setup <| toScore result discoveries).newScored
  | _, _                                          => []

-- The discovery that a step submits.
def newlyCalled (s : EngineState) (input : EngineInput) : List ScoredDiscovery :=
  match s.stage, input with
  | .submitting (discovery :: _), .submit _ => [discovery]
  | _, _                                    => []

-- The discovery that a step submits successfully.
def newlySubmitted (s : EngineState) (input : EngineInput) : List ScoredDiscovery :=
  match s.stage, input with
  | .submitting (discovery :: _), .submit true => [discovery]
  | _, _                                       => []

-- The calls of `submit` succeed, and after the last one of a batch the buffer needs no cap.
def KeepsAll (s : EngineState) (input : EngineInput) : Prop :=
  match s.stage, input with
  | .submitting [_], .submit ok => ok ∧ s.submitBuffer.length ≤ 500
  | .submitting _, .submit ok   => ok
  | _, _                        => True

-- A step hands on what it does not submit, except for what it loses, and the log tells what it accepts and submits.
structure Accounts (setup : EngineSetup) (s : EngineState) (input : EngineInput) (s' : EngineState) : Prop where
  held : (s.newlyCalled input ++ s'.held).Subperm (s.held ++ s.newlyAccepted setup input)
  kept : (s.newlySubmitted input ++ s'.held).Perm (s.held ++ s.newlyAccepted setup input) ↔ s.KeepsAll input
  log  : ∃ events, s'.log = s.log ++ events ∧
    events.filterMap (·.acceptedCid) = (s.newlyAccepted setup input).map (·.cid) ∧
    events.filterMap (·.calledCid) = (s.newlyCalled input).map (·.cid) ∧
    events.filterMap (·.submittedCid) = (s.newlySubmitted input).map (·.cid)

theorem submitBuffer_capBuffer : s.capBuffer.submitBuffer.Sublist s.submitBuffer := by
  rcases capBuffer_cases s with e | ⟨dropped, kept, hb, e⟩ <;> rw [e]
  case inr => rw [hb]; exact List.sublist_append_right ..

theorem length_capBuffer_iff : s.capBuffer.submitBuffer.length = s.submitBuffer.length ↔ s.submitBuffer.length ≤ 500 := by
  rw [capBuffer]
  split <;> simp <;> omega

theorem log_capBuffer : s.capBuffer.log = s.log := by
  rcases capBuffer_cases s with e | ⟨_, _, _, e⟩ <;> rw [e]

theorem held_submitNext (toSubmit : List ScoredDiscovery) :
    (s.submitNext toSubmit).held.Sublist (toSubmit ++ s.submitBuffer) := by
  rcases submitNext_cases s toSubmit with ⟨rfl, e⟩ | ⟨_, e⟩ <;> rw [e]
  case inl => exact submitBuffer_capBuffer
  case inr => exact List.Sublist.refl _

-- Only the cap after the end of a batch loses discoveries.
theorem perm_submitNext_iff (toSubmit : List ScoredDiscovery) :
    (s.submitNext toSubmit).held.Perm (toSubmit ++ s.submitBuffer) ↔ (toSubmit = [] → s.submitBuffer.length ≤ 500) := by
  rcases submitNext_cases s toSubmit with ⟨rfl, e⟩ | ⟨hn, e⟩ <;> rw [e]
  case inr => exact iff_of_true (List.Perm.refl _) fun h => absurd h hn
  case inl =>
    simp only [forall_const, ← length_capBuffer_iff]
    exact ⟨List.Perm.length_eq, fun h => .of_eq <| submitBuffer_capBuffer.eq_of_length h⟩

theorem log_submitNext (toSubmit : List ScoredDiscovery) : (s.submitNext toSubmit).log = s.log := by
  rcases submitNext_cases s toSubmit with ⟨_, e⟩ | ⟨_, e⟩ <;> rw [e]
  case inl => exact log_capBuffer
  case inr => rfl

-- The submission starts without a batch only if the buffer is empty.
theorem perm_startSubmit : (s.startSubmit setup).held.Perm s.submitBuffer := by
  rw [startSubmit]
  split
  case isFalse => exact .refl _
  case isTrue  =>
    conv_rhs => rw [← List.take_append_drop (min s.submitBuffer.length s.batchSize) s.submitBuffer]
    refine perm_submitNext_iff _ |>.mpr fun h => ?_
    have hp := batchSize_pos (s := s)
    have hb : s.submitBuffer = [] := by
      rcases List.take_eq_nil_iff.mp h with h | h
      case inr => exact h
      case inl => exact List.length_eq_zero_iff.mp <| by omega
    simp [hb]

theorem log_startSubmit : (s.startSubmit setup).log = s.log := by
  rcases startSubmit_cases setup s with e | ⟨_, _, _, e⟩ <;> rw [e]
  case inl => rfl
  case inr => exact log_submitNext ..

theorem filterMap_of_isControl {events : List EngineEvent} (h : ∀ e ∈ events, e.isControl) :
    events.filterMap (·.acceptedCid) = [] ∧ events.filterMap (·.calledCid) = [] ∧
      events.filterMap (·.submittedCid) = [] :=
  ⟨List.filterMap_eq_nil_iff.mpr fun e he => EngineEvent.acceptedCid_of_isControl (h e he),
   List.filterMap_eq_nil_iff.mpr fun e he => EngineEvent.calledCid_of_isControl (h e he),
   List.filterMap_eq_nil_iff.mpr fun e he => EngineEvent.submittedCid_of_isControl (h e he)⟩

theorem newlyAccepted_of_settled (h : s.stage.settled) : s.newlyAccepted setup input = [] := by
  unfold newlyAccepted
  split
  case h_1 _ _ hs => rw [hs] at h; cases h
  case h_2    => rfl

theorem newlyCalled_of_settled (h : s.stage.settled) : s.newlyCalled input = [] := by
  unfold newlyCalled
  split
  case h_1 _ _ hs => rw [hs] at h; cases h
  case h_2        => rfl

theorem newlySubmitted_of_settled (h : s.stage.settled) : s.newlySubmitted input = [] := by
  unfold newlySubmitted
  split
  case h_1 _ hs => rw [hs] at h; cases h
  case h_2      => rfl

theorem keepsAll_of_settled (h : s.stage.settled) : s.KeepsAll input := by
  unfold KeepsAll
  split
  case h_1 hs => rw [hs] at h; cases h
  case h_2 hs => rw [hs] at h; cases h
  case h_3    => trivial

theorem keepsAll_of_length_le (hb : s.submitBuffer.length ≤ 500) (hi : ¬input.failsSubmit) : s.KeepsAll input := by
  unfold KeepsAll
  split
  case h_1 => exact ⟨by simpa [EngineInput.failsSubmit] using hi, hb⟩
  case h_2 => simpa [EngineInput.failsSubmit] using hi
  case h_3 => trivial

-- A step that neither accepts nor submits.
theorem Accounts.quiet (ha : s.newlyAccepted setup input = []) (hc : s.newlyCalled input = [])
    (hs : s.newlySubmitted input = []) (hk : s.KeepsAll input) (hh : s'.held = s.held)
    (hl : ∃ events, s'.log = s.log ++ events ∧ ∀ e ∈ events, e.isControl) : Accounts setup s input s' where
  held := by
    rw [ha, hc, hh, List.append_nil]
    exact List.Subperm.refl _
  kept := by
    rw [ha, hs, hh, List.append_nil]
    exact iff_of_true (List.Perm.refl _) hk
  log := by
    have ⟨events, hl, he⟩ := hl
    rw [ha, hc, hs]
    exact ⟨events, hl, filterMap_of_isControl he⟩

theorem accounts_step (e : s.step setup input = some s') : Accounts setup s input s' := by
  cases step_cases e
  case control hs h hs' =>
    refine .quiet (newlyAccepted_of_settled hs) (newlyCalled_of_settled hs) (newlySubmitted_of_settled hs)
      (keepsAll_of_settled hs) ?_ h.log
    rw [held, held, EngineStage.batch_of_settled hs, EngineStage.batch_of_settled_or_search hs', h.submitBuffer]
  case sync hs =>
    refine .quiet ?_ ?_ ?_ ?_ ?_ ⟨[], (List.append_nil _).symm, nofun⟩
    all_goals simp [newlyAccepted, newlyCalled, newlySubmitted, KeepsAll, held, hs, goto, syncCids, EngineStage.batch]
  case panic hs =>
    refine .quiet ?_ ?_ ?_ ?_ ?_ ⟨[], (List.append_nil _).symm, nofun⟩
    all_goals simp [newlyAccepted, newlyCalled, newlySubmitted, KeepsAll, held, hs, goto, EngineStage.batch]
  case trim hs ht =>
    obtain ⟨_, _, _, _, _, _, ht⟩ := trimCids_spec ht
    subst ht
    refine .quiet ?_ ?_ ?_ ?_ ?_ ⟨[], (List.append_nil _).symm, nofun⟩
    all_goals simp [newlyAccepted, newlyCalled, newlySubmitted, KeepsAll, held, hs, goto, EngineStage.batch]
  case search result discoveries hs =>
    have ha : s.newlyAccepted setup (.search <| some (result, discoveries)) =
        (s.collect setup <| toScore result discoveries).newScored := by simp [newlyAccepted, hs]
    have hc : s.newlyCalled (.search <| some (result, discoveries)) = [] := by simp [newlyCalled, hs]
    have hu : s.newlySubmitted (.search <| some (result, discoveries)) = [] := by simp [newlySubmitted, hs]
    have hk : s.KeepsAll (.search <| some (result, discoveries)) := by simp [KeepsAll, hs]
    have hp : ((s.addToBuffer setup <| toScore result discoveries).startSubmit setup).held.Perm
        (s.submitBuffer ++ (s.collect setup <| toScore result discoveries).newScored) :=
      perm_startSubmit.trans perm_addToBuffer
    rw [finishSearch]
    constructor
    case held =>
      rw [ha, hc, held, held, hs]
      exact hp.subperm
    case kept =>
      rw [ha, hu, held, held, hs]
      exact iff_of_true hp hk
    case log =>
      rw [log_startSubmit, ha, hc, hu]
      refine ⟨_, rfl, ?_, ?_, ?_⟩
      · simp [List.filterMap_map, EngineEvent.acceptedCid]
      · simp [List.filterMap_map, EngineEvent.calledCid]
      · simp [List.filterMap_map, EngineEvent.submittedCid]
  case submit discovery rest ok hs =>
    have ha : s.newlyAccepted setup (.submit ok) = [] := by simp [newlyAccepted, hs]
    have hc : s.newlyCalled (.submit ok) = [discovery] := by simp [newlyCalled, hs]
    constructor
    case held =>
      rw [ha, hc, List.append_nil, held, held, hs, finishSubmit]
      refine List.Sublist.subperm ?_
      split
      case isTrue  => exact List.cons_sublist_cons.mpr <| held_submitNext rest
      case isFalse => exact List.cons_sublist_cons.mpr <| (held_submitNext []).trans <| List.sublist_append_right ..
    case kept =>
      have hh : s.held = discovery :: (rest ++ s.submitBuffer) := by rw [held, hs]; rfl
      rw [ha, List.append_nil, hh]
      cases ok
      case false =>
        -- The discovery and the rest of the batch are lost.
        refine iff_of_false (fun h => ?_) (by cases rest <;> simp [KeepsAll, hs])
        have hl := (held_submitNext (s := s.record [.submitted discovery.cid false]) []).length_le
        have hp := h.length_eq
        have hn : s.newlySubmitted (.submit false) = [] := by simp [newlySubmitted, hs]
        rw [hn, finishSubmit, if_neg (by decide), List.nil_append, List.length_cons, List.length_append] at hp
        have hb : (s.record [.submitted discovery.cid false]).submitBuffer = s.submitBuffer := rfl
        rw [List.nil_append, hb] at hl
        omega
      case true =>
        have hn : s.newlySubmitted (.submit true) = [discovery] := by simp [newlySubmitted, hs]
        rw [hn, finishSubmit, if_pos rfl]
        refine (List.perm_cons discovery).trans <| (perm_submitNext_iff rest).trans ?_
        cases rest <;> simp [KeepsAll, hs, record]
    case log =>
      refine ⟨[.submitted discovery.cid ok], ?_, by rw [ha]; rfl, by rw [hc]; rfl, ?_⟩
      · rw [finishSubmit]
        split <;> exact log_submitNext ..
      · cases ok <;> simp [newlySubmitted, hs, EngineEvent.submittedCid]

section Runs

-- The CIDs of the calls of `submit`, of the batch and of the buffer are among the accepted ones, each at most as
-- often as it was accepted.
def Accounted (s : EngineState) : Prop :=
  (s.log.filterMap (·.calledCid) + s.held.map (·.cid) : Multiset GraphCid) ≤ s.log.filterMap (·.acceptedCid)

-- Each accepted discovery has been submitted or waits for it.
def Balanced (s : EngineState) : Prop :=
  (s.log.filterMap (·.submittedCid) + s.held.map (·.cid) : Multiset GraphCid) = s.log.filterMap (·.acceptedCid)

theorem Accounted.init (config : EngineConfig) : (init config).Accounted :=
  le_refl (0 : Multiset GraphCid)

theorem Accounted.step (h : s.Accounted) (e : s.step setup input = some s') : s'.Accounted := by
  have ⟨hh, _, events, hl, ha, hc, _⟩ := accounts_step e
  have hh : ((s.newlyCalled input).map (·.cid) + s'.held.map (·.cid) : Multiset GraphCid) ≤
      s.held.map (·.cid) + (s.newlyAccepted setup input).map (·.cid) := by
    simpa using Multiset.map_le_map (f := (·.cid)) <| Multiset.coe_le.mpr hh
  rw [Accounted, hl, List.filterMap_append, List.filterMap_append, ha, hc, ← Multiset.coe_add, ← Multiset.coe_add]
  calc (s.log.filterMap (·.calledCid) + (s.newlyCalled input).map (·.cid) + s'.held.map (·.cid) : Multiset GraphCid)
    _ = s.log.filterMap (·.calledCid) + ((s.newlyCalled input).map (·.cid) + s'.held.map (·.cid)) := add_assoc ..
    _ ≤ s.log.filterMap (·.calledCid) + (s.held.map (·.cid) + (s.newlyAccepted setup input).map (·.cid)) := by gcongr
    _ = s.log.filterMap (·.calledCid) + s.held.map (·.cid) + (s.newlyAccepted setup input).map (·.cid) := by rw [add_assoc]
    _ ≤ s.log.filterMap (·.acceptedCid) + (s.newlyAccepted setup input).map (·.cid) := by gcongr; exact h

theorem newlySubmitted_sublist (s : EngineState) (input : EngineInput) : (s.newlySubmitted input).Sublist (s.newlyCalled input) := by
  unfold newlySubmitted
  split
  case h_1 hs => simp [newlyCalled, hs]
  case h_2    => exact List.nil_sublist _

theorem Balanced.step_iff (h : s.Balanced) (e : s.step setup input = some s') : s'.Balanced ↔ s.KeepsAll input := by
  have ⟨hh, hk, events, hl, ha, _, hs⟩ := accounts_step e
  have hb : s'.Balanced ↔ ((s.newlySubmitted input ++ s'.held).map (·.cid) : Multiset GraphCid) =
      (s.held ++ s.newlyAccepted setup input).map (·.cid) := by
    rw [Balanced, hl, List.filterMap_append, List.filterMap_append, ha, hs, ← Multiset.coe_add, ← Multiset.coe_add, ← h,
      List.map_append, List.map_append, ← Multiset.coe_add, ← Multiset.coe_add, add_assoc, add_assoc, add_right_inj]
  rw [hb, ← hk]
  constructor
  case mpr => exact fun hp => Multiset.coe_eq_coe.mpr <| hp.map _
  case mp  =>
    intro hp
    have hl := (Multiset.coe_eq_coe.mp hp).length_eq
    rw [List.length_map, List.length_map] at hl
    have hs := (newlySubmitted_sublist s input).append_right s'.held
    exact (hs.subperm.trans hh).perm_of_length_le hl.ge

-- Nothing is submitted or kept that was not accepted before, and nothing that was accepted gets lost as long as the
-- calls of `submit` succeed and the buffer needs no cap.
theorem discoveries_accounted (setup : EngineSetup) (config : EngineConfig) (inputs : List EngineInput)
    (e : Machine.execute (step setup) (init config) inputs = some s) :
    s.Accounted ∧
      ((∀ before, before <+: inputs → ∀ t, Machine.execute (step setup) (init config) before = some t → t.Balanced) ↔
        Machine.Along (step setup) KeepsAll (init config) inputs) := by
  have hb : (init config).Balanced := rfl
  refine ⟨Machine.execute_invariant (fun _ => Accounted) Accounted.step (.init config) e, ?_⟩
  have hi {s : EngineState} {input s'} (_ : True) (_ : s.step setup input = some s') : True := trivial
  exact Machine.always_iff_along hi (fun _ h e => h.step_iff e) trivial hb e

open ReferenceEngine in
theorem path3_accounted :
    ∃ s, Machine.execute (step <| engine false) (init <| options false 10000)
        [.shutdown false, .threshold none, .cids none 0, path3Found, .submit true, .trim ∅ ∅ ∅] = some s ∧
      s.log.filterMap (·.acceptedCid) = [path3Cid] ∧ s.log.filterMap (·.submittedCid) = [path3Cid] ∧
      s.Accounted ∧ s.Balanced := by
  have ⟨s, e, ha, hs⟩ : ∃ s ∈ Machine.execute (Machine.guarded (step <| engine false)
        fun s input => s.submitBuffer.length ≤ 500 ∧ ¬input.failsSubmit) (init <| options false 10000)
        [.shutdown false, .threshold none, .cids none 0, path3Found, .submit true, .trim ∅ ∅ ∅],
      s.log.filterMap (·.acceptedCid) = [path3Cid] ∧ s.log.filterMap (·.submittedCid) = [path3Cid] := by decide +kernel
  have ⟨e, hk⟩ := Machine.along_of_guarded e
  have ⟨hc, hb⟩ := discoveries_accounted _ _ _ e
  have hk : Machine.Along (step <| engine false) KeepsAll (init <| options false 10000) _ :=
    fun before i hp t ht => (hk before i hp t ht).elim keepsAll_of_length_le
  exact ⟨s, e, ha, hs, hc, hb.mpr hk _ List.prefix_rfl s e⟩

end Runs
end EngineState
