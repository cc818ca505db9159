import Extremal.Server.Sequential
import Extremal.Server.Theorems.Submit
import Extremal.Store.Theorems.Leaderboard
import Extremal.Store.Theorems.Tables

namespace Store

variable {state : AppState} {fate : Fate} {req : SubmitRequest} {scored : ScoredGraph} {s s' : Store} {query : Query}

@[simp]
theorem graphRow_cid : (req.graphRow state scored).cid = SubmitRequest.cidHex state scored := rfl

@[simp]
theorem scoreRow_cid : (req.scoreRow state scored).cid = SubmitRequest.cidHex state scored := rfl

-- The store after a call that has failed.
def abort (s : Store) (fate : Fate) (query : Query) : Store :=
  if (fate.fault query).hasEffect then (s.answer fate query).2 else s

theorem run_store {f : query.Answer → Handler α} {a : query.Answer} (ha : s.answer fate query = (.ok a, s')) :
    (Handler.store query >>= f).run (handle fate) s =
      match (fate.fault query).error with
      | none   => (f a).run (handle fate) s'
      | some e => (.error <| .store e, s.abort fate query) := by
  rw [Program.run_bind, Handler.store, Program.run_call, handle, abort]
  cases fate.fault query
  case none =>
    simp only [Fault.error, Fault.hasEffect, ha]
    rfl
  case fails | lost => rfl

-- The score of a request that passes all checks.
def accepted (state : AppState) (fate : Fate) (req : SubmitRequest) (s : Store) : Option ScoredGraph :=
  match req.validate state, (fate.fault <| .getIdentity req.keyId).error,
    req.authenticate state <| s.tables.getIdentity req.keyId, fate.task with
  | .ok matrix, none, .ok (), .ok () => some <| scoreGraph state.lib matrix state.maxK
  | _, _, _, _ => none

theorem run_checkSubmission : ∃ result, (Handler.checkSubmission state req).run (handle fate) s = (result, s) ∧
    result.toOption = s.accepted state fate req := by
  rw [Handler.checkSubmission, accepted, Program.run_bind, Program.run_ofExcept]
  cases req.validate state
  case error e => exact ⟨_, rfl, rfl⟩
  case ok matrix =>
    simp only []
    rw [run_store rfl]
    cases (fate.fault <| .getIdentity req.keyId).error
    case some e =>
      refine ⟨_, Prod.ext rfl ?_, rfl⟩
      simp only [abort, answer, ite_self]
    case none =>
      simp only []
      rw [Program.run_bind, Program.run_ofExcept]
      cases req.authenticate state (s.tables.getIdentity req.keyId)
      case error e => exact ⟨_, rfl, rfl⟩
      case ok =>
        simp only []
        rw [Program.run_perform_bind, handle]
        cases fate.task
        case error | ok => exact ⟨_, rfl, rfl⟩

-- The request leaves no trace in the store: all calls succeed, or a call fails before anything has been
-- written that was not there.
def LeavesNoTrace (state : AppState) (fate : Fate) (req : SubmitRequest) (s : Store) (scored : ScoredGraph) : Prop :=
  let cid := SubmitRequest.cidHex state scored
  let graph := fate.fault <| .storeGraph <| req.graphRow state scored
  let score := fate.fault <| .storeScore <| req.scoreRow state scored
  let submission := fate.fault <| .storeSubmission <| req.submissionRow state scored
  let admission := fate.fault <| .tryAdmit (.ofNat req.n) cid req.keyId
    (req.scoreRow state scored).scoreBytes state.leaderboardCapacity
  let receipt := fate.fault <| .storeReceipt <| req.receiptRow state scored
  graph.error = none ∧ score.error = none ∧ submission.error = none ∧ admission.error = none ∧ receipt.error = none ∨
  (graph.hasEffect → s.tables.hasGraph cid) ∧
  (graph.error = none → score.hasEffect → s.tables.hasScore cid) ∧
  (graph.error = none → score.error = none → ¬submission.hasEffect)

theorem hasEffect_of_error {fault : Fault} (h : fault.error = none) : fault.hasEffect := by
  cases fault <;> first | rfl | cases h

theorem eq_iff_tables {tables : Tables} : { s with tables } = s ↔ tables = s.tables := by
  cases s
  simp

theorem abort_storeGraph (graph : Graph) : s.abort fate (.storeGraph graph) = s ↔
    ((fate.fault <| .storeGraph graph).hasEffect → s.tables.hasGraph graph.cid) := by
  rw [abort]
  split
  case isTrue h  => simp [answer, h, eq_iff_tables, Tables.storeGraph_eq_iff]
  case isFalse h => simp [h]

theorem abort_storeScore (graph : Graph) (score : Score) :
    { s with tables := s.tables.storeGraph graph }.abort fate (.storeScore score) = s ↔
      s.tables.hasGraph graph.cid ∧ ((fate.fault <| .storeScore score).hasEffect → s.tables.hasScore score.cid) := by
  rw [abort]
  split
  case isTrue h  => simp [answer, h, eq_iff_tables, Tables.storeScore_storeGraph_eq_iff]
  case isFalse h => simp [h, eq_iff_tables, Tables.storeGraph_eq_iff]

-- Once the submission has been recorded, the store has changed for good.
theorem ne_of_submissions (submission : Submission) (h : s'.tables.submissions = s.tables.submissions ++ [submission]) :
    s' ≠ s := by
  rintro rfl
  simp at h

theorem submissions_storeSubmission {graph : Graph} {score : Score} {submission : Submission} :
    (((s.tables.storeGraph graph).storeScore score).storeSubmission submission).submissions =
      s.tables.submissions ++ [submission] := by
  simp only [Tables.storeSubmission, Tables.submissions_storeScore, Tables.submissions_storeGraph]

theorem abort_storeSubmission (graph : Graph) (score : Score) (submission : Submission) :
    { s with tables := (s.tables.storeGraph graph).storeScore score }.abort fate (.storeSubmission submission) = s ↔
      s.tables.hasGraph graph.cid ∧ s.tables.hasScore score.cid ∧ ¬(fate.fault <| .storeSubmission submission).hasEffect := by
  rw [abort]
  split
  case isTrue h  =>
    simp only [h, not_true, and_false, iff_false]
    exact ne_of_submissions submission submissions_storeSubmission
  case isFalse h => simp [h, eq_iff_tables, Tables.storeScore_storeGraph_eq_iff]

theorem tables_abort_tryAdmit {n capacity : Int32} {cid keyId : String} {scoreBytes : Lexicographic.Word UInt8} :
    (s.abort fate (.tryAdmit n cid keyId scoreBytes capacity)).tables = s.tables := by
  rw [abort]
  split <;> rfl

theorem submissions_abort_storeReceipt {receipt : Receipt} :
    (s.abort fate (.storeReceipt receipt)).tables.submissions = s.tables.submissions := by
  rw [abort]
  split <;> rfl

theorem run_invalidate {response : α} {admitted : Prop} [Decidable admitted] {n : Int32} :
    (if admitted then do Handler.invalidate n; pure response else pure response : Handler α).run (handle fate) s =
      (.ok response, s) := by
  split <;> rfl

theorem recordSubmission_iff :
    let outcome := (Handler.recordSubmission state req scored).run (handle fate) s
    (∀ e, outcome.1 = .error e → outcome.2 = s) ↔ LeavesNoTrace state fate req s scored := by
  simp only [Handler.recordSubmission, LeavesNoTrace]
  rw [run_store rfl]
  cases hg : (fate.fault <| .storeGraph <| req.graphRow state scored).error
  case some e => simpa using abort_storeGraph (req.graphRow state scored)
  case none =>
    simp only [hasEffect_of_error hg]
    rw [run_store rfl]
    cases hs : (fate.fault <| .storeScore <| req.scoreRow state scored).error
    case some e => simpa using abort_storeScore (req.graphRow state scored) (req.scoreRow state scored)
    case none =>
      simp only [hasEffect_of_error hs]
      rw [run_store rfl]
      cases hx : (fate.fault <| .storeSubmission <| req.submissionRow state scored).error
      case some e =>
        simpa using abort_storeSubmission (req.graphRow state scored) (req.scoreRow state scored)
          (req.submissionRow state scored)
      case none =>
        simp only [hasEffect_of_error hx]
        rw [run_store rfl]
        let submission := req.submissionRow state scored
        cases ha : (fate.fault <| .tryAdmit (.ofNat req.n) (SubmitRequest.cidHex state scored) req.keyId
          (req.scoreRow state scored).scoreBytes state.leaderboardCapacity).error
        case some e =>
          refine iff_of_false (fun h => ne_of_submissions submission ?_ <| h _ rfl) (by simp)
          exact (congrArg _ tables_abort_tryAdmit).trans submissions_storeSubmission
        case none =>
          simp only []
          rw [run_store rfl]
          cases hr : (fate.fault <| .storeReceipt <| req.receiptRow state scored).error
          case some e =>
            refine iff_of_false (fun h => ne_of_submissions submission ?_ <| h _ rfl) (by simp)
            exact submissions_abort_storeReceipt.trans submissions_storeSubmission
          case none =>
            refine iff_of_true (fun e h => ?_) (by simp)
            rw [run_invalidate] at h
            cases h

-- A failed request leaves the tables as they were if and only if it leaves no trace.
theorem submit_all_or_nothing_iff (state : AppState) (fate : Fate) (req : SubmitRequest) (s : Store) :
    let outcome := (Handler.submitGraph state req).run (handle fate) s
    (∀ e, outcome.1 = .error e → outcome.2 = s) ↔
      ∀ scored ∈ s.accepted state fate req, LeavesNoTrace state fate req s scored := by
  have ⟨result, hr, ha⟩ := @run_checkSubmission state fate req s
  simp only [Handler.submitGraph]
  rw [Program.run_bind, hr, ← ha]
  cases result
  case error e => exact iff_of_true (fun _ _ => rfl) nofun
  case ok scored =>
    refine recordSubmission_iff.trans ⟨fun h _ hs => ?_, fun h => h scored rfl⟩
    cases hs
    exact h

end Store

-- The receipt of a path cannot be stored, but the path has taken the place of another graph.
open ReferenceServer in
theorem Store.failed_receipt_keeps_admission :
    let fate : Fate := {
      fault := fun | .storeReceipt _ => .fails <| .sqlx "no connection" | _ => .none
      task  := .ok ()
      now   := 0
      scan  := .heap }
    let tables : Store.Tables := { identities, graphs := [], scores := [], submissions := [], receipts := [] }
    let s : Store := { tables, leaderboard := Leaderboard.empty.admitAll [{ Offer.ofByte "worse" 255 1 with n := 3 }] }
    let path3 := scoreGraph ReferenceNauty.crates ReferenceNauty.path3 5
    let outcome := (Handler.submitGraph (state 1) <| submission ReferenceNauty.path3).run (handle fate) s
    s.leaderboard.rows.map (·.cid) = ["worse"] ∧
    outcome.2.leaderboard.rows.map (·.cid) = [SubmitRequest.cidHex (state 1) path3] ∧
    ¬∀ e, outcome.1 = .error e → outcome.2 = s := by
  intro fate tables s path3 outcome
  have hs : s.leaderboard.rows.map (·.cid) = ["worse"] := by decide +kernel
  have ho : outcome.2.leaderboard.rows.map (·.cid) = [SubmitRequest.cidHex (state 1) path3] := by decide +kernel
  have he : outcome.1.toOption.isNone := by decide +kernel
  refine ⟨hs, ho, fun h => ?_⟩
  cases hr : outcome.1
  case ok    => simp [hr, Except.toOption] at he
  case error =>
    rw [h _ hr, hs] at ho
    exact absurd ho (by decide +kernel)
