import Extremal.Server.Theorems.Records

open Lexicographic Store

namespace Store.Tables

variable {tables tables' : Tables}

-- No row of a graph, a score, a submission or a receipt is deleted.
structure Extends (tables tables' : Tables) : Prop extends tables.Grows tables' where
  submissions : tables.submissions ⊆ tables'.submissions
  receipts    : tables.receipts ⊆ tables'.receipts

theorem Extends.refl (tables : Tables) : tables.Extends tables :=
  ⟨.refl _, fun _ => id, fun _ => id⟩

theorem Extends.trans {tables₁ tables₂ tables₃ : Tables} (h₁ : tables₁.Extends tables₂) (h₂ : tables₂.Extends tables₃) :
    tables₁.Extends tables₃ :=
  ⟨h₁.toGrows.trans h₂.toGrows, fun _ h => h₂.submissions (h₁.submissions h), fun _ h => h₂.receipts (h₁.receipts h)⟩

theorem extends_storeGraph {graph : Graph} : tables.Extends (tables.storeGraph graph) :=
  ⟨grows_storeGraph, by simp, by simp⟩

theorem extends_storeScore {score : Score} : tables.Extends (tables.storeScore score) :=
  ⟨grows_storeScore, by simp, by simp⟩

theorem extends_storeSubmission {submission : Submission} : tables.Extends (tables.storeSubmission submission) :=
  ⟨⟨fun _ => id, fun _ => id⟩, List.subset_append_left .., fun _ => id⟩

theorem extends_storeReceipt {receipt : Receipt} : tables.Extends (tables.storeReceipt receipt) :=
  ⟨⟨fun _ => id, fun _ => id⟩, fun _ => id, List.subset_append_left ..⟩

end Store.Tables

namespace ServerState

variable {state : AppState} {requests : Fin m → Request} {s s' s₁ s₂ s₃ : ServerState m} {i : Fin m} {choice : Choice}
  {query : Query} {call : Call} {req : SubmitRequest} {scored : ScoredGraph}

-- Everything that is written for an accepted request.
structure OnFile (state : AppState) (req : SubmitRequest) (scored : ScoredGraph) (tables : Tables) : Prop where
  graph      : tables.hasGraph (SubmitRequest.cidHex state scored)
  score      : tables.hasScore (SubmitRequest.cidHex state scored)
  submission : req.submissionRow state scored ∈ tables.submissions
  receipt    : req.receiptRow state scored ∈ tables.receipts

theorem OnFile.extend {tables tables' : Tables} (h : OnFile state req scored tables) (ht : tables.Extends tables') :
    OnFile state req scored tables' :=
  ⟨ht.graphs _ h.graph, ht.scores _ h.score, ht.submissions h.submission, ht.receipts h.receipt⟩

-- The response is the one to an accepted request, and its rank is the one with which `try_admit` has committed.
structure Confirmed (state : AppState) (req : SubmitRequest) (i : Fin m) (response : SubmitResponse) (s : ServerState m)
    (scored : ScoredGraph) : Prop where
  cid      : response.cid = SubmitRequest.cidHex state scored
  admitted : response.admitted = response.rank.isSome
  rank     : s.database.phase i = .committed response.rank
  onFile   : OnFile state req scored s.tables

-- A response to a submission tells what has become of it.
def Reports (state : AppState) (request : Request) (i : Fin m) (result : Except ApiError Response) (s : ServerState m) : Prop :=
  ∀ response, result = .ok (.submitted response) → ∃ req matrix, request = .submit req ∧ req.validate state = .ok matrix ∧
    Confirmed state req i response s (scoreGraph state.lib matrix state.maxK)

-- What no later turn takes back.
structure Persists (s s' : ServerState m) : Prop where
  tables : s.tables.Extends s'.tables
  phase  : ∀ i admitted, s.database.phase i = .committed admitted → s'.database.phase i = .committed admitted

namespace Persists

theorem refl (s : ServerState m) : s.Persists s :=
  ⟨.refl _, fun _ _ => id⟩

theorem trans (h₁ : s₁.Persists s₂) (h₂ : s₂.Persists s₃) : s₁.Persists s₃ :=
  ⟨h₁.tables.trans h₂.tables, fun i admitted h => h₂.phase i admitted (h₁.phase i admitted h)⟩

theorem congr (ht : s'.tables = s.tables) (hd : s'.database = s.database) : s.Persists s' :=
  ⟨ht ▸ .refl _, fun _ _ => hd ▸ id⟩

theorem reports {request : Request} {result : Except ApiError Response} (hp : s.Persists s')
    (h : Reports state request i result s) : Reports state request i result s' := by
  intro response hr
  have ⟨req, matrix, hreq, hv, hc⟩ := h response hr
  exact ⟨req, matrix, hreq, hv, hc.cid, hc.admitted, hp.phase i _ hc.rank, hc.onFile.extend hp.tables⟩

end Persists

-- What a program knows after a successful call.
def Learnt (i : Fin m) (query : Query) (answer : query.Answer) (s : ServerState m) : Prop :=
  match query, answer with
  | .storeGraph graph, _               => s.tables.hasGraph graph.cid
  | .storeScore score, _               => s.tables.hasScore score.cid
  | .storeSubmission submission, _     => submission ∈ s.tables.submissions
  | .tryAdmit _ _ _ _ _, admitted      => s.database.phase i = .committed admitted
  | .storeReceipt receipt, _           => receipt ∈ s.tables.receipts
  | _, _                               => True

section Turns

theorem persists_write {tables : Tables} {answer : α} {r : Option (Except StoreError α)}
    (hw : Write s tables answer s' r) (ht : s.tables.Extends tables) : s.Persists s' := by
  cases hw
  case ok | lost => exact ⟨ht, fun _ _ => id⟩
  case fails     => exact .refl _

theorem persists_phase {next : Database m} (h : ¬s.database.isCommitted i)
    (ho : ∀ j, j ≠ i → next.phase j = s.database.phase j) : s.Persists { s with database := next } := by
  refine ⟨.refl _, fun j admitted hj => ?_⟩
  have hne : j ≠ i := by
    intro he
    subst he
    exact h <| Phase.isCommitted_iff.mpr ⟨admitted, hj⟩
  exact (ho j hne).trans hj

theorem persists_query {r : Option (Except StoreError query.Answer)} (e : s.query i choice query = some (s', r)) :
    s.Persists s' := by
  cases query
  case getIdentity     => exact persists_write (write_cases e) (.refl _)
  case storeGraph      => exact persists_write (write_cases e) Tables.extends_storeGraph
  case storeScore      => exact persists_write (write_cases e) Tables.extends_storeScore
  case storeSubmission => exact persists_write (write_cases e) Tables.extends_storeSubmission
  case storeReceipt    => exact persists_write (write_cases e) Tables.extends_storeReceipt
  case tryAdmit =>
    cases tryAdmit_cases e
    case ok | lost => exact .refl _
    case moves hd =>
      have hm := Database.step_moved hd
      exact persists_phase hm.running hm.others
    case fails hc => exact persists_phase hc fun _ hj => Database.phase_rollback_of_ne hj
  case leaderboardCount | leaderboardThreshold | getLeaderboardCids | getLeaderboardGraphs =>
    unfold ServerState.query at e
    cases read_cases e <;> exact .congr rfl rfl

theorem learnt_query {answer : query.Answer} (e : s.query i choice query = some (s', some (.ok answer))) :
    Learnt i query answer s' := by
  cases query
  case storeGraph =>
    cases write_cases e
    exact Tables.hasGraph_storeGraph
  case storeScore =>
    cases write_cases e
    exact Tables.hasScore_storeScore
  case storeSubmission =>
    cases write_cases e
    exact List.mem_append_right _ <| .head _
  case storeReceipt =>
    cases write_cases e
    exact List.mem_append_right _ <| .head _
  case tryAdmit =>
    cases tryAdmit_cases e
    case ok h => exact h
  all_goals trivial

theorem persists_perform {r : Option call.Answer} (e : perform i call s choice = some (s', r)) : s.Persists s' := by
  by_cases hc : ∃ query, call = .store query
  case pos =>
    obtain ⟨query, rfl⟩ := hc
    exact persists_query e
  case neg =>
    have ⟨ht, hd, _⟩ := perform_stored (fun query h => hc ⟨query, h⟩) e
    exact .congr ht hd

end Turns

-- All responses so far tell what has become of their requests.
def Honest (state : AppState) (requests : Fin m → Request) (s : ServerState m) : Prop :=
  ∀ i result seen, .responded i result seen ∈ s.log → Reports state (requests i) i result s

-- A response has to tell what has become of the request.
def Owes (state : AppState) (request : Request) (i : Fin m) (s : ServerState m) : Call → Prop
  | .respond result => Reports state request i result s
  | _               => True

theorem Honest.mono (h : s.Honest state requests) (hp : s.Persists s')
    (hl : ∀ i result seen, .responded i result seen ∈ s'.log → .responded i result seen ∈ s.log) :
    s'.Honest state requests :=
  fun i result seen hm => hp.reports <| h i result seen <| hl i result seen hm

theorem Honest.perform {r : Option call.Answer} (h : s.Honest state requests) (ho : Owes state (requests i) i s call)
    (e : perform i call s choice = some (s', r)) : s'.Honest state requests := by
  have hp := persists_perform e
  cases call
  case respond result =>
    cases e
    intro j result' seen hm
    rcases List.mem_append.mp hm with hm | hm
    case inl => exact hp.reports <| h j result' seen hm
    case inr =>
      cases List.mem_singleton.mp hm
      exact hp.reports ho
  case store query =>
    refine h.mono hp fun _ _ _ => ?_
    cases query
    case tryAdmit => cases tryAdmit_cases e <;> exact id
    case leaderboardCount | leaderboardThreshold | getLeaderboardCids | getLeaderboardGraphs =>
      unfold ServerState.perform ServerState.query at e
      cases read_cases e <;> exact id
    all_goals cases write_cases e <;> exact id
  case getThreshold | getCids | getGraphs =>
    refine h.mono hp fun _ _ _ => ?_
    cases lookup_cases e <;> exact id
  case remove =>
    cases e
    exact h.mono hp fun _ _ _ hm => by simpa using hm
  all_goals
    cases e
    exact h.mono hp fun _ _ _ => id

def honesty (state : AppState) (requests : Fin m → Request) : Pool.Protocol (Fin m) Call (ServerState m) where
  Inv              := Honest state requests
  Rely _ s s'      := s.Persists s'
  Wait _ _ s s'    := s.Persists s'
  refl _           := .refl
  trans            := .trans
  wait_rely        := id
  wait_trans       := .trans

-- All turns of a program keep the responses honest, and its result meets a condition.
abbrev Speaks (state : AppState) (requests : Fin m → Request) (i : Fin m) (Q : α → ServerState m → Prop)
    (p : Program Call Call.Answer ε α) (s : ServerState m) : Prop :=
  (honesty state requests).Safe perform (fun _ _ _ _ => True) i (fun r s => ∀ a, r = .ok a → Q a s) p s

section Rules

variable {α ε : Type} {Q : α → ServerState m → Prop}

theorem speaks_ret {a : α} (h : ∀ s', s.Persists s' → Q a s') :
    Speaks state requests i Q (.ret a : Program Call Call.Answer ε α) s := by
  rintro s' hs _ _ ⟨⟩
  exact h s' hs

theorem speaks_throw {e : ε} : Speaks state requests i Q (.throw e) s :=
  fun _ _ _ => nofun

theorem speaks_bind {p : Handler β} {f : β → Handler α} {R : β → ServerState m → Prop} (hInv : s.Honest state requests)
    (hp : Speaks state requests i R p s)
    (hf : ∀ b s, s.Honest state requests → R b s → Speaks state requests i Q (f b) s) :
    Speaks state requests i Q (p >>= f) s := by
  refine hp.bind hInv (fun b s hi hb => hf b s hi <| hb b rfl) fun e s _ _ => nofun

theorem speaks_ofExcept {x : Except ApiError α} (hQ : ∀ a, x = .ok a → ∀ s', s.Persists s' → Q a s') :
    Speaks state requests i Q (.ofExcept x) s := by
  cases x
  case error e => exact speaks_throw
  case ok a    => exact speaks_ret <| hQ a rfl

theorem speaks_perform {f : call.Answer → Program Call Call.Answer ε α}
    (ho : ∀ s', s.Persists s' → Owes state (requests i) i s' call)
    (hf : ∀ a s', s.Persists s' → s'.Honest state requests → Speaks state requests i Q (f a) s') :
    Speaks state requests i Q (.perform call >>= f) s := by
  intro s₁ hr hInv choice s₂ r _ e
  have hInv' := hInv.perform (ho s₁ hr) e
  have hp := persists_perform e
  refine ⟨⟨hInv', fun _ _ => hp⟩, ?_⟩
  cases r
  case none   => exact hp
  case some a => exact hf a s₂ (hr.trans hp) hInv'

theorem speaks_store {f : query.Answer → Handler α}
    (hf : ∀ a s', s.Persists s' → s'.Honest state requests → Learnt i query a s' → Speaks state requests i Q (f a) s') :
    Speaks state requests i Q (Handler.store query >>= f) s := by
  intro s₁ hr hInv choice s₂ r _ e
  have ho : Owes state (requests i) i s₁ (.store query) := trivial
  have hInv' := hInv.perform ho e
  have hp := persists_perform e
  refine ⟨⟨hInv', fun _ _ => hp⟩, ?_⟩
  rcases r with _ | e' | a
  case none       => exact hp
  case some.error => exact speaks_throw
  case some.ok    => exact hf a s₂ (hr.trans hp) hInv' <| learnt_query e

end Rules

section Handlers

open Handler

variable {n : Int32}

theorem speaks_invalidate {α : Type} {a : α} {Q : α → ServerState m → Prop} (h : ∀ s', s.Persists s' → Q a s') :
    Speaks state requests i Q (invalidate n >>= fun _ => .ret a) s := by
  refine speaks_perform (fun _ _ => trivial) fun _ s₁ h₁ _ => ?_
  refine speaks_perform (fun _ _ => trivial) fun _ s₂ h₂ _ => ?_
  refine speaks_perform (fun _ _ => trivial) fun _ s₃ h₃ _ => ?_
  exact speaks_ret fun s' hs => h s' <| h₁.trans <| h₂.trans <| h₃.trans hs

theorem speaks_checkSubmission (hInv : s.Honest state requests) :
    Speaks state requests i (fun scored _ => ∃ matrix, req.validate state = .ok matrix ∧
      scored = scoreGraph state.lib matrix state.maxK) (checkSubmission state req) s := by
  refine speaks_bind hInv (speaks_ofExcept (Q := fun matrix _ => req.validate state = .ok matrix) fun _ hm _ _ => hm)
    fun matrix s _ hm => ?_
  refine speaks_store fun identity s _ hInv _ => ?_
  refine speaks_bind hInv (speaks_ofExcept (Q := fun _ _ => True) fun _ _ _ _ => trivial) fun _ s _ _ => ?_
  refine speaks_perform (fun _ _ => trivial) fun task s _ _ => ?_
  cases task
  case error e => exact speaks_throw
  case ok      => exact speaks_ret fun _ _ => ⟨matrix, hm, rfl⟩

theorem speaks_recordSubmission :
    Speaks state requests i (fun response s => Confirmed state req i response s scored) (recordSubmission state req scored)
      s := by
  refine speaks_store fun _ s₁ _ _ hg => ?_
  refine speaks_store fun _ s₂ h₂ _ hs => ?_
  refine speaks_store fun _ s₃ h₃ _ hx => ?_
  refine speaks_store fun rank s₄ h₄ _ hd => ?_
  refine speaks_store fun _ s₅ h₅ _ hr => ?_
  have h₃₅ := h₄.trans h₅
  have h₂₅ := h₃.trans h₃₅
  have hf : OnFile state req scored s₅.tables :=
    ⟨(h₂.trans h₂₅).tables.graphs _ hg, h₂₅.tables.scores _ hs, h₃₅.tables.submissions hx, hr⟩
  have hd := h₅.phase i _ hd
  have hc (s' : ServerState m) (hs : s₅.Persists s') : OnFile state req scored s'.tables ∧ s'.database.phase i = .committed rank :=
    ⟨hf.extend hs.tables, hs.phase i _ hd⟩
  cases rank
  case none   => exact speaks_ret fun s' hs => ⟨rfl, rfl, (hc s' hs).2, (hc s' hs).1⟩
  case some r => exact speaks_invalidate fun s' hs => ⟨rfl, rfl, (hc s' hs).2, (hc s' hs).1⟩

theorem owes_of_isRead {request : Request} {call : Call} (h : call.IsRead) : Owes state request i s call := by
  cases call
  case respond => exact h.elim
  all_goals trivial

theorem speaks_handle (request : Request) (hi : requests i = request) (hInv : s.Honest state requests) :
    Speaks state requests i (fun response s => Reports state request i (.ok response) s) (handle state request) s := by
  have hr (h : ∀ req, request ≠ .submit req) :
      Speaks state requests i (fun response s => Reports state request i (.ok response) s) (handle state request) s := by
    refine Pool.Protocol.Safe.imp (Pool.Protocol.Safe.of_meets (reads_handle h) fun hc hi _ e => ?_) fun r s hr a ha => ?_
    · exact ⟨⟨Honest.perform hi (owes_of_isRead hc) e, fun _ _ => persists_perform e⟩, persists_perform e⟩
    · subst ha
      exact fun response he => absurd he <| hr response
  cases request
  case submit req =>
    refine speaks_bind hInv (R := fun response s => Reports state (.submit req) i (.ok <| .submitted response) s) ?_
      fun response s _ h => speaks_ret fun s' hs => hs.reports h
    refine speaks_bind hInv (speaks_checkSubmission hInv) fun scored s _ h => ?_
    obtain ⟨matrix, hm, rfl⟩ := h
    refine Pool.Protocol.Safe.imp speaks_recordSubmission fun r s hr response he response' he' => ?_
    cases he'
    exact ⟨req, matrix, rfl, hm, hr _ he⟩
  all_goals exact hr nofun

theorem speaks_serve (hInv : s.Honest state requests) :
    Speaks state requests i (fun _ _ => True) (serve state (requests i)) s := by
  refine Pool.Protocol.Safe.attempt hInv (speaks_handle (requests i) rfl hInv) fun result s hInv h => ?_
  have hr : Reports state (requests i) i result s := by
    cases result
    case ok response => exact h response rfl
    case error e     => nofun
  exact speaks_perform (fun _ hs => hs.reports hr) fun _ _ _ _ => speaks_ret fun _ _ => trivial

end Handlers

theorem honest_of_run {tables : Tables} {rows : Rows} {server : Server m}
    (r : Machine.Run Server.step (fun _ _ => True) (Server.init state requests tables rows) server) :
    server.shared.Honest state requests := by
  have r : Machine.Run (Pool.step perform) (Pool.Allows fun _ _ _ _ => True) (Server.init state requests tables rows) server :=
    r.mono fun _ _ _ _ _ _ => trivial
  have hInv : (ServerState.init tables rows : ServerState m).Honest state requests := nofun
  exact Pool.Protocol.Safe.pool r hInv fun i => speaks_serve hInv

-- In every run, whatever calls fail, each response that accepts a graph is true: it has the CID of the graph, the graph,
-- its score, the submission and the receipt are stored, and the rank is the one with which `try_admit` has committed.
theorem responses_honest (state : AppState) (requests : Fin m → Request) (tables : Tables) (rows : Rows) {server : Server m}
    (r : Machine.Run Server.step (fun _ _ => True) (Server.init state requests tables rows) server) :
    ∀ i req response seen, requests i = .submit req →
      .responded i (.ok (.submitted response)) seen ∈ server.shared.log → ∃ matrix, req.validate state = .ok matrix ∧
        Confirmed state req i response server.shared (scoreGraph state.lib matrix state.maxK) := by
  intro i req response seen hi hm
  have ⟨req', matrix, hi', hv, hc⟩ := honest_of_run r i _ seen hm response rfl
  cases hi.symm.trans hi'
  exact ⟨matrix, hv, hc⟩

end ServerState

open ReferenceServer ServerState in
theorem ServerState.path3_confirmed :
    ∃ server, Machine.Run Server.step (fun _ _ => True)
        (Server.init (state 5) (fun _ : Fin 1 => .submit <| submission ReferenceNauty.path3) ⟨identities, [], [], [], []⟩ [])
        server ∧
      ∃ response seen, .responded 0 (.ok (.submitted response)) seen ∈ server.shared.log ∧ response.rank = some 1 ∧
        ∃ matrix, (submission ReferenceNauty.path3).validate (state 5) = .ok matrix ∧
          Confirmed (state 5) (submission ReferenceNauty.path3) 0 response server.shared
            (scoreGraph (state 5).lib matrix (state 5).maxK) := by
  have ⟨server, e, response, seen, hm, hr⟩ : ∃ server ∈ Machine.execute Server.step
      (Server.init (state 5) (fun _ : Fin 1 => .submit <| submission ReferenceNauty.path3) ⟨identities, [], [], [], []⟩ [])
      (.replicate 19 <| turn 0 .none),
      ∃ response seen, .responded 0 (.ok (.submitted response)) seen ∈ server.shared.log ∧ response.rank = some 1 :=
    ⟨_, rfl, _, _, List.mem_append_right _ <| .head _, rfl⟩
  have r : Machine.Run Server.step (fun _ _ => True) _ server := Machine.run_of_execute e
  exact ⟨server, r, response, seen, hm, hr, responses_honest (state 5) _ ⟨identities, [], [], [], []⟩ [] r 0 _ response seen rfl hm⟩
