import Extremal.Server.Theorems.Identity
import Extremal.Worker.Theorems.Dashboard

open Lexicographic Store

-- The submission of a graph on `n` vertices, signed with the key of an identity.
structure Store.Submission.SignedBy (state : AppState) (n : Int32) (identity : Identity) (x : Submission) : Prop where
  keyId : identity.keyId = x.keyId
  graph : ∃ order graph6 matrix, decodeRequest state.maxN order graph6 = .ok matrix ∧ n = .ofNat order ∧
    x.cid = SubmitRequest.cidHex state (scoreGraph state.lib matrix state.maxK) ∧
    state.verifySignature identity.publicKey (canonicalPayload order graph6) x.signature = .ok true

-- A submission for an entry of the board whose identity is known.
def Store.Tables.Vouch (state : AppState) (tables : Tables) (n : Int32) (cid keyId : String) : Prop :=
  ∃ x ∈ tables.submissions, x.cid = cid ∧ x.keyId = keyId ∧ ∃ identity ∈ tables.identities, x.SignedBy state n identity

namespace ServerState

variable {state : AppState} {s s' : ServerState m} {i : Fin m} {choice : Choice} {query : Query} {call : Call}
  {tables tables' : Tables} {n : Int32} {cid keyId : String}

-- Identities and submissions stay.
structure Retains (tables tables' : Tables) : Prop where
  identities  : tables.identities ⊆ tables'.identities
  submissions : tables.submissions ⊆ tables'.submissions

theorem Retains.refl (tables : Tables) : Retains tables tables :=
  ⟨fun _ => id, fun _ => id⟩

theorem Retains.trans {tables'' : Tables} (h : Retains tables tables') (h' : Retains tables' tables'') : Retains tables tables'' :=
  ⟨List.Subset.trans h.identities h'.identities, List.Subset.trans h.submissions h'.submissions⟩

theorem Retains.vouch (h : Retains tables tables') (hv : tables.Vouch state n cid keyId) : tables'.Vouch state n cid keyId := by
  obtain ⟨x, hx, hc, hk, identity, hi, hs⟩ := hv
  exact ⟨x, h.submissions hx, hc, hk, identity, h.identities hi, hs⟩

-- The rows of the board have been signed for.
def Attested (state : AppState) (s : ServerState m) : Prop :=
  ∀ v ∈ s.database.versions, s.tables.Vouch state v.entry.n v.entry.cid v.entry.keyId

-- What has to be stored before a call.
def Attests (state : AppState) (tables : Tables) : Query → Prop
  | .tryAdmit n cid keyId _ _ => tables.Vouch state n cid keyId
  | _                         => True

-- What is stored after a successful call.
def Attains (tables : Tables) : (query : Query) → query.Answer → Prop
  | .getIdentity keyId, identity => ∀ row : Identity, (identity : Option Identity) = some row →
    row ∈ tables.identities ∧ row.keyId = keyId
  | .storeSubmission x, _ => x ∈ tables.submissions
  | _, _                  => True

section Steps

theorem Attested.write (h : s.Attested state) (hk : Retains s.tables tables) : Attested state { s with tables } :=
  fun v hv => hk.vouch <| h v hv

theorem Attested.of_write {answer : query.Answer} {r : Option (Except StoreError query.Answer)} (h : s.Attested state)
    (hw : Write s tables answer s' r) (hk : Retains s.tables tables) (ha : Attains tables query answer) :
    s'.Attested state ∧ Retains s.tables s'.tables ∧ ∀ a, r = some (.ok a) → Attains s'.tables query a := by
  cases hw
  case ok    => exact ⟨h.write hk, hk, by rintro _ ⟨⟩; exact ha⟩
  case fails => exact ⟨h, .refl _, nofun⟩
  case lost  => exact ⟨h.write hk, hk, nofun⟩

theorem query_attested {r : Option (Except StoreError query.Answer)} (h : s.Attested state)
    (ha : Attests state s.tables query) (e : s.query i choice query = some (s', r)) :
    s'.Attested state ∧ Retains s.tables s'.tables ∧ ∀ a, r = some (.ok a) → Attains s'.tables query a := by
  cases query
  case getIdentity keyId =>
    refine h.of_write (write_cases e) (.refl _) fun row hr => ?_
    exact ⟨List.mem_of_find?_eq_some hr, by simpa using List.find?_some hr⟩
  case storeGraph graph =>
    refine h.of_write (write_cases e) ⟨?_, ?_⟩ trivial
    · rw [Tables.storeGraph]
      split <;> exact fun _ => id
    · rw [Tables.submissions_storeGraph]
      exact fun _ => id
  case storeScore score =>
    refine h.of_write (write_cases e) ⟨?_, ?_⟩ trivial
    · rw [Tables.storeScore]
      split <;> exact fun _ => id
    · rw [Tables.submissions_storeScore]
      exact fun _ => id
  case storeSubmission x =>
    refine h.of_write (write_cases e) ⟨fun _ => id, fun _ => List.mem_append_left _⟩ ?_
    exact List.mem_append_right _ <| List.mem_singleton_self x
  case storeReceipt receipt => exact h.of_write (write_cases e) ⟨fun _ => id, fun _ => id⟩ trivial
  case tryAdmit n cid keyId scoreBytes capacity =>
    cases tryAdmit_cases e
    case ok    => exact ⟨h, .refl _, fun _ _ => trivial⟩
    case lost  => exact ⟨h, .refl _, fun _ _ => trivial⟩
    case moves hd =>
      refine ⟨fun v hv => ?_, .refl _, by simp⟩
      rcases (Database.step_moved hd).writes.entry hv with ⟨v', hv', he⟩ | ⟨newRank, he⟩
      case inl => exact he ▸ h v' hv'
      case inr => exact he ▸ ha
    case fails =>
      refine ⟨fun v hv => ?_, .refl _, by simp⟩
      obtain ⟨v', hv', he⟩ := Database.entry_rollback hv
      exact he ▸ h v' hv'
  case leaderboardCount | leaderboardThreshold | getLeaderboardCids | getLeaderboardGraphs =>
    unfold ServerState.query at e
    cases read_cases e <;> exact ⟨h, .refl _, fun _ _ => trivial⟩

theorem Attests.mono (h : Attests state tables query) (hk : Retains tables tables') : Attests state tables' query := by
  cases query
  case tryAdmit => exact hk.vouch h
  all_goals trivial

end Steps

def attestations (state : AppState) : Pool.Protocol (Fin m) Call (ServerState m) where
  Inv              := Attested state
  Rely _ s s'      := Retains s.tables s'.tables
  Wait _ _ s s'    := Retains s.tables s'.tables
  refl _ _         := .refl _
  trans h₁ h₂      := h₁.trans h₂
  wait_rely        := id
  wait_trans h₁ h₂ := h₁.trans h₂

-- All turns of a program keep the rows attested, and its result meets a condition.
abbrev Attesting (state : AppState) (i : Fin m) (Q : Except ε α → ServerState m → Prop)
    (p : Program Call Call.Answer ε α) (s : ServerState m) : Prop :=
  (attestations state).Safe perform (fun _ _ _ _ => True) i Q p s

section Handlers

open Handler

variable {α ε : Type} {Q : Except ApiError α → ServerState m → Prop} {req : SubmitRequest} {scored : ScoredGraph}

-- The call neither records a submission nor admits a graph.
def Passive : Call → Prop
  | .store (.storeSubmission _) | .store (.tryAdmit _ _ _ _ _) => False
  | _                                                         => True

theorem perform_attested {r : Option call.Answer} (h : s.Attested state) (hc : Passive call)
    (e : perform i call s choice = some (s', r)) : s'.Attested state ∧ Retains s.tables s'.tables := by
  by_cases hq : ∃ query, call = .store query
  case pos =>
    obtain ⟨query, rfl⟩ := hq
    have ha : Attests state s.tables query := by cases query <;> trivial
    have ⟨ha, hk, _⟩ := query_attested h ha e
    exact ⟨ha, hk⟩
  case neg =>
    have ⟨ht, hd, _⟩ := perform_stored (fun query h => hq ⟨query, h⟩) e
    refine ⟨?_, ht ▸ .refl _⟩
    rw [Attested, ht, hd]
    exact h

theorem attesting_of_meets {p : Program Call Call.Answer ε α} (h : p.Meets Passive (fun _ _ => True) fun _ => True) :
    Attesting state i (fun _ _ => True) p s := by
  refine Pool.Protocol.Safe.of_meets h fun hc hi _ e => ?_
  have ⟨ha, hk⟩ := perform_attested hi hc e
  exact ⟨⟨ha, fun _ _ => hk⟩, hk⟩

theorem attesting_throw {e : ApiError} (hQ : ∀ e s, Q (.error e) s) : Attesting state i Q (.throw e) s :=
  fun s _ _ => hQ e s

theorem attesting_store {f : query.Answer → Handler α} (hQ : ∀ e s, Q (.error e) s) (ha : Attests state s.tables query)
    (hf : ∀ a s', Retains s.tables s'.tables → Attains s'.tables query a → Attesting state i Q (f a) s') :
    Attesting state i Q (store query >>= f) s := by
  intro s₁ hr hInv choice s₂ r _ e
  have ⟨hInv', hk, ha'⟩ := query_attested hInv (ha.mono hr) e
  refine ⟨⟨hInv', fun _ _ => hk⟩, ?_⟩
  rcases r with _ | e | a
  case none       => exact hk
  case some.error => exact attesting_throw hQ
  case some.ok    => exact hf a s₂ (hr.trans hk) (ha' a rfl)

theorem attesting_ofExcept {x : Except ApiError β} {f : β → Handler α} (hQ : ∀ e s, Q (.error e) s)
    (hf : ∀ b, x = .ok b → Attesting state i Q (f b) s) : Attesting state i Q (.ofExcept x >>= f) s := by
  cases x
  case error e => exact attesting_throw hQ
  case ok b    => exact hf b rfl

-- The request is for a graph with this score, and signed by a known identity.
def Signs (state : AppState) (req : SubmitRequest) (scored : ScoredGraph) (tables : Tables) : Prop :=
  ∃ identity ∈ tables.identities, (req.submissionRow state scored).SignedBy state (.ofNat req.n) identity

theorem attesting_checkSubmission : Attesting state i (fun r s => ∀ scored, r = .ok scored → Signs state req scored s.tables)
    (checkSubmission state req) s := by
  have hQ : ∀ (e : ApiError) (s : ServerState m) scored, .error e = Except.ok scored → Signs state req scored s.tables :=
    fun _ _ _ => nofun
  refine attesting_ofExcept hQ fun matrix hm => ?_
  refine attesting_store hQ trivial fun identity s _ hi => ?_
  refine attesting_ofExcept hQ fun _ ha => ?_
  cases identity
  case none => cases ha
  case some identity =>
    have ⟨hi, hk⟩ := hi identity rfl
    have hs : Signs state req (scoreGraph state.lib matrix state.maxK) s.tables :=
      ⟨identity, hi, hk, req.n, req.graph6, matrix, SubmitRequest.decodeRequest_of_validate hm, rfl, rfl,
        SubmitRequest.authenticate_iff.mp ha⟩
    intro s₁ hr hInv choice s₂ r _ e
    have hp : Passive .spawnBlocking := trivial
    have ⟨ha, hk⟩ := perform_attested hInv hp e
    refine ⟨⟨ha, fun _ _ => hk⟩, ?_⟩
    cases e
    cases choice.task
    case error => exact attesting_throw hQ
    case ok =>
      rintro s₂ hr' _ _ ⟨⟩
      have ⟨identity, hi, hx⟩ := hs
      exact ⟨identity, (hr.trans <| hk.trans hr').identities hi, hx⟩

theorem passive_invalidate {n : Int32} {a : α} :
    (invalidate n >>= fun _ => .ret a : Handler α).Meets Passive (fun _ _ => True) fun _ => True :=
  ⟨trivial, fun _ _ => ⟨trivial, fun _ _ => ⟨trivial, fun _ _ => trivial⟩⟩⟩

theorem attesting_recordSubmission (h : Signs state req scored s.tables) :
    Attesting state i (fun _ _ => True) (recordSubmission state req scored) s := by
  have hQ : ∀ (e : ApiError) (s : ServerState m), True := fun _ _ => trivial
  refine attesting_store hQ trivial fun _ s₁ h₁ _ => ?_
  refine attesting_store hQ trivial fun _ s₂ h₂ _ => ?_
  refine attesting_store hQ trivial fun _ s₃ h₃ hx => ?_
  have ⟨identity, hi, hs⟩ := h
  have hi := (h₁.trans <| h₂.trans h₃).identities hi
  refine attesting_store hQ ⟨_, hx, rfl, rfl, identity, hi, hs⟩ fun rank s₄ _ _ => ?_
  refine attesting_store hQ trivial fun _ s₅ _ _ => ?_
  cases rank
  case none   => exact fun _ _ _ => trivial
  case some r => exact attesting_of_meets passive_invalidate

theorem attesting_submitGraph (hInv : s.Attested state) :
    Attesting state i (fun _ _ => True) (submitGraph state req) s :=
  Pool.Protocol.Safe.bind hInv attesting_checkSubmission
    (fun scored _ _ h => attesting_recordSubmission <| h scored rfl) fun _ _ _ _ => trivial

theorem passive_of_isRead {call : Call} (h : call.IsRead) : Passive call := by
  cases call
  case store query => cases query <;> trivial
  all_goals trivial

theorem attesting_handle (request : Request) (hInv : s.Attested state) :
    Attesting state i (fun _ _ => True) (handle state request) s := by
  have hr (h : ∀ req, request ≠ .submit req) : Attesting state i (fun _ _ => True) (handle state request) s :=
    attesting_of_meets <| (reads_handle h).mono (fun _ => passive_of_isRead) fun _ _ => trivial
  cases request
  case submit req =>
    exact Pool.Protocol.Safe.bind hInv (attesting_submitGraph hInv) (fun _ _ _ _ _ _ _ => trivial) fun _ _ _ _ => trivial
  all_goals exact hr nofun

theorem attesting_serve (request : Request) (hInv : s.Attested state) :
    Attesting state i (fun _ _ => True) (serve state request) s :=
  Pool.Protocol.Safe.attempt hInv (attesting_handle request hInv) fun _ _ _ _ =>
    attesting_of_meets ⟨trivial, fun _ _ => trivial⟩

end Handlers
end ServerState

namespace KeyServer

variable {setup : KeySetup} {state : AppState} {requests : Fin m → Request} {s : KeyServer m}

-- A registration as the other requests see it: the known identities may become more.
def addIdentities (s : ServerState m) (added : List Identity) : Option (ServerState m) :=
  some { s with tables := { s.tables with identities := s.tables.identities ++ added } }

theorem exists_added (rows : List IdentityRow) (row : IdentityRow) : ∃ added,
    (Upsert.upsert (·.keyId) IdentityRow.merge rows row).map (·.toIdentity) = rows.map (·.toIdentity) ++ added := by
  rw [Upsert.upsert]
  split
  case isFalse => exact ⟨[row.toIdentity], by simp⟩
  case isTrue  =>
    refine ⟨[], ?_⟩
    rw [List.map_map, List.append_nil]
    refine List.map_congr_left fun row' _ => ?_
    simp only [Function.comp_apply]
    split <;> rfl

-- The other requests are handled by a server to which identities are added.
theorem run_server {inputs : List (KeyTurn m)}
    (e : Machine.execute (step setup) (init state requests) inputs = some s) :
    Machine.Run (Pool.stepWith ServerState.perform addIdentities) (fun _ _ => True)
      (Server.init state requests ⟨[], [], [], [], []⟩ []) s.server := by
  let P (inputs : List (KeyTurn m)) (s : KeyServer m) : Prop := s.Registered setup inputs ∧
    Machine.Run (Pool.stepWith ServerState.perform addIdentities) (fun _ _ => True)
      (Server.init state requests ⟨[], [], [], [], []⟩ []) s.server
  refine (Machine.execute_invariant P (fun {inputs s input s'} ⟨hr, r⟩ e => ⟨hr.step e, ?_⟩) ⟨registered_init, .refl⟩ e).2
  cases input
  case turn turn =>
    have ⟨server, hs, he⟩ := Option.map_eq_some_iff.mp e
    subst he
    have hs : Pool.stepWith ServerState.perform addIdentities _ (.inl turn) = some server := hs
    exact r.step trivial hs
  case register req fault now =>
    cases e
    have ⟨result, hr'⟩ := registerKey_cases req fault now hr.certified
    rcases hr' with ⟨hr', _⟩ | ⟨row, _, _, hr'⟩ <;> rw [hr']
    case inl => exact r
    case inr =>
      have ⟨added, ha⟩ := exists_added s.keys row
      refine r.step (i := .inr added) trivial ?_
      simp only [Pool.stepWith, addIdentities, respond, setKeys, Option.map_some, ha, hr.identities]

-- In every run each entry of a board has been submitted with a signature for its graph that is valid for the key with
-- the entry's key ID, and this key has been registered.
theorem boards_signed (setup : KeySetup) (state : AppState) (requests : Fin m → Request) (inputs : List (KeyTurn m))
    (s : KeyServer m) (e : Machine.execute (step setup) (init state requests) inputs = some s) :
    ∀ e ∈ s.server.shared.database.committedRows, ∃ row ∈ s.keys, row.Certified setup.crates ∧ row.keyId = e.keyId ∧
      ∃ x ∈ s.server.shared.tables.submissions, x.cid = e.cid ∧ x.SignedBy state e.n row.toIdentity := by
  have hr : s.Registered setup inputs := Machine.execute_invariant (Registered setup) Registered.step registered_init e
  have h₀ : (ServerState.init ⟨[], [], [], [], []⟩ [] : ServerState m).Attested state := nofun
  have h : s.server.shared.Attested state := by
    refine Pool.Protocol.Safe.pool_with (run_server e)
      (fun {t t' added} ha he => ?_) h₀ fun i => ServerState.attesting_serve (requests i) h₀
    cases he
    have hk : ServerState.Retains t.tables { t.tables with identities := t.tables.identities ++ added } :=
      ⟨fun _ => List.mem_append_left _, fun _ => id⟩
    exact ⟨ha.write hk, fun _ => hk⟩
  intro entry he
  have ⟨v, hv, hve⟩ := List.mem_map.mp he
  obtain ⟨x, hx, hc, hk, identity, hi, hs⟩ := h v (List.mem_filter.mp hv).1
  subst hve
  rw [hr.identities] at hi
  obtain ⟨row, hm, rfl⟩ := List.mem_map.mp hi
  exact ⟨row, hm, hr.certified row hm, hs.keyId.trans hk, x, hx, hc, hs⟩

end KeyServer

namespace ReferenceKeys

open ReferenceIdentity

-- A submission of a path that is signed with the registered key.
def submission : SubmitRequest where
  n         := 3
  graph6    := Graph6.encode ReferenceNauty.path3
  keyId     := identity.keyId
  signature := identity.sign crates <| canonicalPayload 3 <| Graph6.encode ReferenceNauty.path3
  metadata  := none

end ReferenceKeys

open ReferenceKeys DashboardClient in
theorem KeyServer.path3_signed :
    ∃ s, Machine.execute (step setup) (init Reference.state fun _ : Fin 1 => .submit submission)
        (registrations 1 ++ .replicate 19 (.turn <| ReferenceServer.turn 0 .none)) = some s ∧
      s.server.shared.database.committedRows.length = 1 ∧
      ∀ e ∈ s.server.shared.database.committedRows, ∃ row ∈ s.keys, row.Certified setup.crates ∧ row.keyId = e.keyId ∧
        ∃ x ∈ s.server.shared.tables.submissions, x.cid = e.cid ∧ x.SignedBy Reference.state e.n row.toIdentity := by
  have ⟨s, e, hl⟩ : ∃ s ∈ Machine.execute (step setup) (init Reference.state fun _ : Fin 1 => .submit submission)
      (registrations 1 ++ .replicate 19 (.turn <| ReferenceServer.turn 0 .none)),
      s.server.shared.database.committedRows.length = 1 := by decide +kernel
  exact ⟨s, e, hl, boards_signed setup Reference.state _ _ s e⟩
