import Extremal.Graph.Theorems.RoundTrip
import Extremal.Server.Theorems.Serve
import Extremal.Server.Theorems.Submit
import Extremal.Store.Theorems.Tables
import Extremal.Types.Theorems.Hex

open Lexicographic Store

namespace ServerState

variable {state : AppState} {requests : Fin m → Request} {s s' : ServerState m} {i : Fin m} {choice : Choice}
  {query : Query} {call : Call}

-- A valid request to submit a graph, and the score of the graph.
def Scored (state : AppState) (requests : Fin m → Request) (req : SubmitRequest) (scored : ScoredGraph) : Prop :=
  (∃ i, requests i = .submit req) ∧
    ∃ matrix, req.validate state = .ok matrix ∧ scored = scoreGraph state.lib matrix state.maxK

-- The row comes from a request whose graph and score are stored.
structure Backed (state : AppState) (requests : Fin m → Request) (tables : Tables) (n : Int32) (cid : String)
    (scoreBytes : Word UInt8) : Prop where
  origin   : ∃ req scored, Scored state requests req scored ∧ n = .ofNat req.n ∧
    cid = SubmitRequest.cidHex state scored ∧ scoreBytes = (req.scoreRow state scored).scoreBytes
  hasGraph : tables.hasGraph cid
  hasScore : tables.hasScore cid

structure Recorded (state : AppState) (requests : Fin m → Request) (s : ServerState m) : Prop where
  graphs      : ∀ g ∈ s.tables.graphs, ∃ req scored, Scored state requests req scored ∧ g = req.graphRow state scored
  scores      : ∀ x ∈ s.tables.scores, ∃ req scored, Scored state requests req scored ∧ x = req.scoreRow state scored
  submissions : ∀ x ∈ s.tables.submissions, s.tables.hasGraph x.cid
  receipts    : ∀ x ∈ s.tables.receipts, s.tables.hasGraph x.cid
  versions    : ∀ v ∈ s.database.versions,
    Backed state requests s.tables v.entry.n v.entry.cid v.entry.scoreBytes

-- What has to be stored before a call.
def Allowed (state : AppState) (requests : Fin m → Request) (tables : Tables) : Query → Prop
  | .storeGraph g => ∃ req scored, Scored state requests req scored ∧ g = req.graphRow state scored
  | .storeScore x => ∃ req scored, Scored state requests req scored ∧ x = req.scoreRow state scored
  | .storeSubmission x => tables.hasGraph x.cid
  | .storeReceipt x => tables.hasGraph x.cid
  | .tryAdmit n cid _ scoreBytes _ => Backed state requests tables n cid scoreBytes
  | _ => True

-- What is stored after a successful call.
def Granted (tables : Tables) : Query → Prop
  | .storeGraph g => tables.hasGraph g.cid
  | .storeScore x => tables.hasScore x.cid
  | _ => True

section Keeps

variable {tables : Tables} {next : Database m} {n : Int32} {cid : String} {scoreBytes : Word UInt8}

theorem Backed.mono (h : Backed state requests s.tables n cid scoreBytes) (hg : s.tables.Grows tables) :
    Backed state requests tables n cid scoreBytes :=
  ⟨h.origin, hg.graphs _ h.hasGraph, hg.scores _ h.hasScore⟩

theorem Allowed.mono (h : Allowed state requests s.tables query) (hg : s.tables.Grows tables) :
    Allowed state requests tables query := by
  cases query
  case storeSubmission | storeReceipt => exact hg.graphs _ h
  case tryAdmit => exact Backed.mono h hg
  all_goals exact h

-- The tables may change by one row.
theorem Recorded.write (h : s.Recorded state requests) (hg : s.tables.Grows tables)
    (hgraphs : ∀ g ∈ tables.graphs, g ∈ s.tables.graphs ∨
      ∃ req scored, Scored state requests req scored ∧ g = req.graphRow state scored)
    (hscores : ∀ x ∈ tables.scores, x ∈ s.tables.scores ∨
      ∃ req scored, Scored state requests req scored ∧ x = req.scoreRow state scored)
    (hsubmissions : ∀ x ∈ tables.submissions, x ∈ s.tables.submissions ∨ s.tables.hasGraph x.cid)
    (hreceipts : ∀ x ∈ tables.receipts, x ∈ s.tables.receipts ∨ s.tables.hasGraph x.cid) :
    Recorded state requests { s with tables } where
  graphs g hm      := (hgraphs g hm).elim (h.graphs g) id
  scores x hm      := (hscores x hm).elim (h.scores x) id
  submissions x hm := hg.graphs _ <| (hsubmissions x hm).elim (h.submissions x) id
  receipts x hm    := hg.graphs _ <| (hreceipts x hm).elim (h.receipts x) id
  versions v hm    := (h.versions v hm).mono hg

theorem Recorded.setDatabase (h : s.Recorded state requests) (hv : ∀ v ∈ next.versions,
      (∃ v' ∈ s.database.versions, v'.entry = v.entry) ∨
      Backed state requests s.tables v.entry.n v.entry.cid v.entry.scoreBytes) :
    Recorded state requests { s with database := next } where
  graphs      := h.graphs
  scores      := h.scores
  submissions := h.submissions
  receipts    := h.receipts
  versions v hm := by
    rcases hv v hm with ⟨v', hm', he⟩ | hb
    case inl => exact he ▸ h.versions v' hm'
    case inr => exact hb

theorem Recorded.congr (h : s.Recorded state requests) (ht : s'.tables = s.tables) (hd : s'.database = s.database) :
    s'.Recorded state requests := by
  have ⟨_, _, _, _, _⟩ := h
  constructor
  case versions => rwa [ht, hd]
  all_goals rwa [ht]

theorem Recorded.of_write {answer : α} {r : Option (Except StoreError α)}
    (h : s.Recorded state requests) (hw : Write s tables answer s' r) (ht : Recorded state requests { s with tables })
    (hg : s.tables.Grows tables) (ha : Granted tables query) :
    s'.Recorded state requests ∧ s.tables.Grows s'.tables ∧ ∀ a, r = some (.ok a) → Granted s'.tables query := by
  cases hw
  case ok    => exact ⟨ht, hg, fun _ _ => ha⟩
  case fails => exact ⟨h, .refl _, nofun⟩
  case lost  => exact ⟨ht, hg, nofun⟩

theorem Recorded.of_read {answer : Rows → Except StoreError α} {r : Option (Except StoreError α)}
    (h : s.Recorded state requests) (hr : Read s i answer s' r) :
    s'.Recorded state requests ∧ s.tables.Grows s'.tables ∧ ∀ a, r = some (.ok a) → True := by
  cases hr
  case ok    => exact ⟨h.congr rfl rfl, .refl _, fun _ _ => trivial⟩
  case fails => exact ⟨h, .refl _, fun _ _ => trivial⟩

end Keeps

theorem query_recorded {r : Option (Except StoreError query.Answer)} (h : s.Recorded state requests)
    (ha : Allowed state requests s.tables query) (e : s.query i choice query = some (s', r)) :
    s'.Recorded state requests ∧ s.tables.Grows s'.tables ∧ ∀ a, r = some (.ok a) → Granted s'.tables query := by
  cases query
  case getIdentity => exact h.of_write (write_cases e) h (.refl _) trivial
  case storeGraph graph =>
    refine h.of_write (write_cases e) (h.write Tables.grows_storeGraph ?_ ?_ ?_ ?_) Tables.grows_storeGraph
      Tables.hasGraph_storeGraph
    · exact fun g hm => (Tables.mem_storeGraph hm).imp_right <| by rintro rfl; exact ha
    · exact fun x hm => .inl <| by simpa using hm
    · exact fun x hm => .inl <| by simpa using hm
    · exact fun x hm => .inl <| by simpa using hm
  case storeScore score =>
    refine h.of_write (write_cases e) (h.write Tables.grows_storeScore ?_ ?_ ?_ ?_) Tables.grows_storeScore
      Tables.hasScore_storeScore
    · exact fun g hm => .inl <| by simpa using hm
    · exact fun x hm => (Tables.mem_storeScore hm).imp_right <| by rintro rfl; exact ha
    · exact fun x hm => .inl <| by simpa using hm
    · exact fun x hm => .inl <| by simpa using hm
  case storeSubmission submission =>
    have hg : s.tables.Grows (s.tables.storeSubmission submission) := ⟨fun _ => id, fun _ => id⟩
    refine h.of_write (write_cases e) (h.write hg ?_ ?_ ?_ ?_) hg trivial
    · exact fun g hm => .inl hm
    · exact fun x hm => .inl hm
    · exact fun x hm => (List.mem_append.mp hm).imp_right fun he => by rwa [List.mem_singleton.mp he]
    · exact fun x hm => .inl hm
  case storeReceipt receipt =>
    have hg : s.tables.Grows (s.tables.storeReceipt receipt) := ⟨fun _ => id, fun _ => id⟩
    refine h.of_write (write_cases e) (h.write hg ?_ ?_ ?_ ?_) hg trivial
    · exact fun g hm => .inl hm
    · exact fun x hm => .inl hm
    · exact fun x hm => .inl hm
    · exact fun x hm => (List.mem_append.mp hm).imp_right fun he => by rwa [List.mem_singleton.mp he]
  case tryAdmit n cid keyId scoreBytes capacity =>
    cases tryAdmit_cases e
    case ok    => exact ⟨h, .refl _, fun _ _ => trivial⟩
    case lost  => exact ⟨h, .refl _, fun _ _ => trivial⟩
    case moves hd =>
      refine ⟨h.setDatabase fun v hv => ?_, .refl _, nofun⟩
      refine ((Database.step_moved hd).writes.entry hv).imp_right ?_
      rintro ⟨newRank, he⟩
      rw [he]
      exact ha
    case fails => exact ⟨h.setDatabase fun v hv => .inl <| Database.entry_rollback hv, .refl _, nofun⟩
  case leaderboardCount | leaderboardThreshold | getLeaderboardCids | getLeaderboardGraphs =>
    unfold ServerState.query at e
    exact h.of_read (read_cases e)

-- The other calls do not touch the store.
theorem perform_stored {r : Option call.Answer} (hc : ∀ query, call ≠ .store query)
    (e : perform i call s choice = some (s', r)) : s'.tables = s.tables ∧ s'.database = s.database ∧ r ≠ none := by
  cases call
  case store query => exact absurd rfl <| hc query
  case getThreshold | getCids | getGraphs => cases lookup_cases e <;> exact ⟨rfl, rfl, nofun⟩
  all_goals
    cases e
    exact ⟨rfl, rfl, nofun⟩

def records (state : AppState) (requests : Fin m → Request) : Pool.Protocol (Fin m) Call (ServerState m) where
  Inv              := Recorded state requests
  Rely _ s s'      := s.tables.Grows s'.tables
  Wait _ _ s s'    := s.tables.Grows s'.tables
  refl _ _         := .refl _
  trans h₁ h₂      := h₁.trans h₂
  wait_rely        := id
  wait_trans h₁ h₂ := h₁.trans h₂

-- All turns of a program keep the records, and its result meets a condition.
abbrev Records (state : AppState) (requests : Fin m → Request) (i : Fin m) (Q : α → Prop)
    (p : Program Call Call.Answer ε α) (s : ServerState m) : Prop :=
  (records state requests).Safe perform (fun _ _ _ _ => True) i (fun r _ => ∀ a, r = .ok a → Q a) p s

section Safe

variable {α ε : Type} {Q : α → Prop}

theorem records_ret {a : α} (h : Q a) : Records state requests i Q (.ret a : Program Call Call.Answer ε α) s := by
  rintro _ _ _ _ ⟨⟩
  exact h

theorem records_throw {e : ε} : Records state requests i Q (.throw e) s :=
  fun _ _ _ => nofun

theorem records_store {f : query.Answer → Handler α} (ha : Allowed state requests s.tables query)
    (hf : ∀ a s', s.tables.Grows s'.tables → Granted s'.tables query → Records state requests i Q (f a) s') :
    Records state requests i Q (Handler.store query >>= f) s := by
  intro s₁ hr hInv choice s₂ r _ e
  have ⟨hInv', hg, ha'⟩ := query_recorded hInv (ha.mono hr) e
  refine ⟨⟨hInv', fun _ _ => hg⟩, ?_⟩
  rcases r with _ | e | a
  case none       => exact hg
  case some.error => exact records_throw
  case some.ok    => exact hf a s₂ (hr.trans hg) (ha' a rfl)

theorem records_perform {f : call.Answer → Program Call Call.Answer ε α} (hc : ∀ query, call ≠ .store query)
    (hf : ∀ a s', s.tables.Grows s'.tables → Records state requests i Q (f a) s') :
    Records state requests i Q (.perform call >>= f) s := by
  intro s₁ hr hInv choice s₂ r _ e
  have ⟨ht, hd, hn⟩ := perform_stored hc e
  have hg : s₁.tables.Grows s₂.tables := ht ▸ .refl _
  refine ⟨⟨hInv.congr ht hd, fun _ _ => hg⟩, ?_⟩
  cases r
  case none   => exact absurd rfl hn
  case some a => exact hf a s₂ (hr.trans hg)

theorem records_ofExcept {x : Except ApiError β} {f : β → Handler α}
    (hf : ∀ b, x = .ok b → Records state requests i Q (f b) s) : Records state requests i Q (.ofExcept x >>= f) s := by
  cases x
  case error e => exact records_throw
  case ok b    => exact hf b rfl

theorem records_bind {p : Handler β} {f : β → Handler α} {Q' : β → Prop} (hInv : s.Recorded state requests)
    (hp : Records state requests i Q' p s)
    (hf : ∀ b s', Q' b → Records state requests i Q (f b) s') : Records state requests i Q (p >>= f) s := by
  refine hp.bind hInv (fun b s _ hb => hf b s <| hb b rfl) fun e s _ _ => nofun

end Safe

section Handlers

open Handler

variable {req : SubmitRequest} {scored : ScoredGraph}

theorem records_checkSubmission (hreq : requests i = .submit req) :
    Records state requests i (Scored state requests req) (checkSubmission state req) s := by
  refine records_ofExcept fun matrix hm => ?_
  refine records_store trivial fun identity s _ _ => ?_
  refine records_ofExcept fun _ _ => ?_
  refine records_perform nofun fun task s _ => ?_
  cases task
  case error e => exact records_throw
  case ok      => exact records_ret ⟨⟨i, hreq⟩, matrix, hm, rfl⟩

theorem records_invalidate {n : Int32} {p : Handler α} {Q : α → Prop}
    (hp : ∀ s, Records state requests i Q p s) : Records state requests i Q (invalidate n >>= fun _ => p) s := by
  refine records_perform nofun fun _ s _ => ?_
  refine records_perform nofun fun _ s _ => ?_
  exact records_perform nofun fun _ s _ => hp s

theorem records_recordSubmission (h : Scored state requests req scored) :
    Records state requests i (fun _ => True) (recordSubmission state req scored) s := by
  refine records_store ⟨req, scored, h, rfl⟩ fun _ s₁ _ hg => ?_
  refine records_store ⟨req, scored, h, rfl⟩ fun _ s₂ h₂ hs => ?_
  have hg := h₂.graphs _ hg
  refine records_store hg fun _ s₃ h₃ _ => ?_
  have hg := h₃.graphs _ hg
  have hs := h₃.scores _ hs
  refine records_store ⟨⟨req, scored, h, rfl, rfl, rfl⟩, hg, hs⟩ fun rank s₄ h₄ _ => ?_
  have hg := h₄.graphs _ hg
  refine records_store hg fun _ s₅ _ _ => ?_
  cases rank
  case none   => exact records_ret trivial
  case some r => exact records_invalidate fun s => records_ret trivial

theorem records_submitGraph (hInv : s.Recorded state requests) (hreq : requests i = .submit req) :
    Records state requests i (fun _ => True) (submitGraph state req) s :=
  records_bind hInv (records_checkSubmission hreq) fun _ _ h => records_recordSubmission h

theorem records_getThreshold {n : Int32} : Records state requests i (fun _ => True) (getThreshold state n) s := by
  refine records_perform nofun fun cached s _ => ?_
  cases cached
  case some => exact records_ret trivial
  case none =>
    refine records_store trivial fun count s _ _ => ?_
    refine records_store trivial fun threshold s _ _ => ?_
    exact records_perform nofun fun _ s _ => records_ret trivial

theorem records_getCids {n : Int32} {since : Option Nat} :
    Records state requests i (fun _ => True) (getCids n since) s := by
  cases since
  case some time =>
    have h : Records state requests i (fun _ => True) (store (.getLeaderboardCids n time) >>= .ret) s :=
      records_store trivial fun _ _ _ _ => records_ret trivial
    rwa [Program.bind_ret] at h
  case none =>
    refine records_perform nofun fun cached s _ => ?_
    cases cached
    case some => exact records_ret trivial
    case none =>
      refine records_store trivial fun cids s _ _ => ?_
      exact records_perform nofun fun _ s _ => records_ret trivial

theorem records_getGraphs {n : Int32} {limit offset : Int64} :
    Records state requests i (fun _ => True) (getGraphs n limit offset) s := by
  refine records_perform nofun fun cached s _ => ?_
  cases cached
  case some => exact records_ret trivial
  case none =>
    refine records_store trivial fun rows s _ _ => ?_
    exact records_perform nofun fun _ s _ => records_ret trivial

theorem records_serve (hInv : s.Recorded state requests) :
    Records state requests i (fun _ => True) (serve state (requests i)) s := by
  have hp : Records state requests i (fun _ => True) (handle state (requests i)) s := by
    cases hreq : requests i
    case submit    => exact records_bind hInv (records_submitGraph hInv hreq) fun _ _ _ => records_ret trivial
    case threshold => exact records_bind hInv records_getThreshold fun _ _ _ => records_ret trivial
    case cids      => exact records_bind hInv records_getCids fun _ _ _ => records_ret trivial
    case graphs    => exact records_bind hInv records_getGraphs fun _ _ _ => records_ret trivial
  exact hp.attempt hInv fun result s _ _ => records_perform nofun fun _ _ _ => records_ret trivial

end Handlers

-- In every run, the rows of the tables come from requests whose graphs and scores are stored.
theorem recorded_run {identities : List Identity} {server : Server m}
    (r : Machine.Run Server.step (fun _ _ => True) (Server.init state requests ⟨identities, [], [], [], []⟩ []) server) :
    server.shared.Recorded state requests := by
  have r : Machine.Run (Pool.step perform) (Pool.Allows fun _ _ _ _ => True)
      (Server.init state requests ⟨identities, [], [], [], []⟩ []) server :=
    r.mono fun _ _ _ _ _ _ => trivial
  have hInv : (ServerState.init ⟨identities, [], [], [], []⟩ [] : ServerState m).Recorded state requests :=
    ⟨nofun, nofun, nofun, nofun, nofun⟩
  exact Pool.Protocol.Safe.pool r hInv fun i => records_serve hInv

end ServerState

-- The tables of the server fit together.
structure Consistent (state : AppState) (tables : Tables) (leaderboard : Rows) : Prop where
  graphs : ∀ g ∈ tables.graphs, ∃ m, Graph6.decode g.graph6 = .ok m ∧ g.n.toInt = m.n ∧
    (computeCid state.lib (canonicalForm state.lib m).1).toHex state.hex = g.cid
  leaderboard : ∀ e ∈ leaderboard, (∃ g ∈ tables.graphs, g.cid = e.cid ∧ g.n = e.n) ∧
    ∃ x ∈ tables.scores, x.cid = e.cid ∧ x.n = e.n ∧ x.scoreBytes = e.scoreBytes
  submissions : ∀ x ∈ tables.submissions, ∃ g ∈ tables.graphs, g.cid = x.cid
  receipts    : ∀ x ∈ tables.receipts, ∃ g ∈ tables.graphs, g.cid = x.cid

namespace ServerState

variable {state : AppState} {requests : Fin m → Request} {s : ServerState m} {req req' : SubmitRequest}
  {scored scored' : ScoredGraph} {tables : Tables} {cid : String}

-- The encodings whose hashes are the CIDs of the requests.
def canonicalGraphs (state : AppState) (requests : Fin m → Request) : Set (List UInt8) :=
  { bytes | ∃ req scored, Scored state requests req scored ∧ bytes = scored.canonicalGraph6 }

theorem validate_ok {matrix : AdjacencyMatrix} (e : req.validate state = .ok matrix) :
    matrix.n = req.n ∧ matrix.n ≤ 62 := by
  simp only [SubmitRequest.validate, decodeRequest] at e
  split_ifs at e
  split at e
  case h_1 => cases e
  case h_2 matrix' hd =>
    split_ifs at e with hn
    cases e
    exact ⟨not_not.mp hn, Graph6.n_le_of_decode hd⟩

theorem hasGraph_iff : tables.hasGraph cid ↔ ∃ g ∈ tables.graphs, g.cid = cid := by
  simp [Tables.hasGraph]

theorem hasScore_iff : tables.hasScore cid ↔ ∃ x ∈ tables.scores, x.cid = cid := by
  simp [Tables.hasScore]

section Consistent

variable (nauty : state.lib.LawfulNauty) (hex : state.hex.Lawful)
  (blake3 : Set.InjOn state.lib.blake3 (canonicalGraphs state requests))

include nauty hex blake3

-- A CID belongs to one score and one order.
theorem scored_eq (h : Scored state requests req scored) (h' : Scored state requests req' scored')
    (hc : SubmitRequest.cidHex state scored = SubmitRequest.cidHex state scored') :
    scored = scored' ∧ req.n = req'.n := by
  have ⟨_, m₁, hv₁, hs₁⟩ := h
  have ⟨_, m₂, hv₂, hs₂⟩ := h'
  have ⟨hn₁, h₁⟩ := validate_ok hv₁
  have ⟨hn₂, h₂⟩ := validate_ok hv₂
  have hcid : scored.score.cid = scored'.score.cid := GraphCid.toHex_inj hex hc
  have hg : scored.canonicalGraph6 = scored'.canonicalGraph6 := by
    refine blake3 ⟨_, _, h, rfl⟩ ⟨_, _, h', rfl⟩ ?_
    subst hs₁ hs₂
    exact hcid
  subst hs₁ hs₂
  have ⟨e⟩ := nonempty_iso_of_encode nauty h₁ h₂ hg
  have hn : m₁.n = m₂.n := by simpa using Fintype.card_congr e.toEquiv
  exact ⟨scoreGraph_iso nauty h₁ e state.maxK, by rw [← hn₁, ← hn₂, hn]⟩

omit hex blake3 in
-- A stored graph decodes to a graph with its CID.
theorem graphRow_decodes (h : Scored state requests req scored) :
    ∃ m, Graph6.decode (req.graphRow state scored).graph6 = .ok m ∧ (req.graphRow state scored).n.toInt = m.n ∧
      (computeCid state.lib (canonicalForm state.lib m).1).toHex state.hex = (req.graphRow state scored).cid := by
  have ⟨_, matrix, hv, hs⟩ := h
  have ⟨hn, hle⟩ := validate_ok hv
  have hc := cleanOn_canonicalForm nauty hle
  have ⟨m, hd, _, hm⟩ := Graph6.decode_encode (m := (canonicalForm state.lib matrix).1) (by rwa [hc.1])
  have ⟨e⟩ := nonempty_canonicalIso nauty hle
  subst hs
  refine ⟨m, hd, ?_, ?_⟩
  · rw [hm.n, hc.1, hn]
    exact Int32.toInt_ofNat_of_lt (by omega)
  · rw [canonicalForm_congr hm, ← canonicalForm_eq nauty hle e]
    rfl

omit nauty hex blake3 in
theorem Recorded.graph (h : s.Recorded state requests) (hg : s.tables.hasGraph cid) :
    ∃ req scored, Scored state requests req scored ∧ req.graphRow state scored ∈ s.tables.graphs ∧
      SubmitRequest.cidHex state scored = cid := by
  have ⟨g, hm, hc⟩ := hasGraph_iff.mp hg
  have ⟨req, scored, hs, he⟩ := h.graphs g hm
  subst he
  exact ⟨req, scored, hs, hm, hc⟩

omit nauty hex blake3 in
theorem Recorded.score (h : s.Recorded state requests) (hg : s.tables.hasScore cid) :
    ∃ req scored, Scored state requests req scored ∧ req.scoreRow state scored ∈ s.tables.scores ∧
      SubmitRequest.cidHex state scored = cid := by
  have ⟨x, hm, hc⟩ := hasScore_iff.mp hg
  have ⟨req, scored, hs, he⟩ := h.scores x hm
  subst he
  exact ⟨req, scored, hs, hm, hc⟩

-- The rows for a CID agree, whichever request has written them first.
theorem Recorded.consistent (h : s.Recorded state requests) :
    Consistent state s.tables s.database.committedRows where
  graphs g hg := by
    have ⟨req, scored, hs, he⟩ := h.graphs g hg
    rw [he]
    exact graphRow_decodes nauty hs
  leaderboard e he := by
    have ⟨v, hv, hve⟩ := List.mem_map.mp he
    have ⟨⟨req, scored, hs, hn, hc, hb⟩, hg, hx⟩ := h.versions v (List.mem_filter.mp hv).1
    rw [hve] at hn hc hb hg hx
    have ⟨req₁, scored₁, hs₁, hm₁, hc₁⟩ := h.graph hg
    have ⟨req₂, scored₂, hs₂, hm₂, hc₂⟩ := h.score hx
    have ⟨_, hn₁⟩ := scored_eq nauty hex blake3 hs hs₁ (hc.symm.trans hc₁.symm)
    have ⟨he₂, hn₂⟩ := scored_eq nauty hex blake3 hs hs₂ (hc.symm.trans hc₂.symm)
    subst he₂
    exact ⟨⟨_, hm₁, hc₁, by rw [hn, hn₁]; rfl⟩, _, hm₂, hc₂, by rw [hn, hn₂]; rfl, hb.symm⟩
  submissions x hx := hasGraph_iff.mp <| h.submissions x hx
  receipts x hx    := hasGraph_iff.mp <| h.receipts x hx

end Consistent

-- In every run from empty tables, the rows of the tables fit together.
theorem records_consistent (state : AppState) (nauty : state.lib.LawfulNauty) (hex : state.hex.Lawful)
    (requests : Fin m → Request) (blake3 : Set.InjOn state.lib.blake3 (canonicalGraphs state requests))
    (identities : List Identity) (server : Server m)
    (r : Machine.Run Server.step (fun _ _ => True) (Server.init state requests ⟨identities, [], [], [], []⟩ []) server) :
    Consistent state server.shared.tables server.shared.database.committedRows :=
  (recorded_run r).consistent nauty hex blake3

end ServerState

-- Two labellings of a path. The receipt of the first one cannot be stored.
open ServerState ReferenceServer ReferenceNauty in
theorem ServerState.relabelled_paths_consistent :
    let graphs (i : Fin 2) : AdjacencyMatrix := if i = 0 then path3 else path3.permuteVertices [1, 0, 2]
    let requests (i : Fin 2) : Request := .submit <| submission (graphs i)
    ∃ server, Machine.Run Server.step (fun _ _ => True)
        (Server.init (state 5) requests ⟨identities, [], [], [], []⟩ []) server ∧
      server.shared.tables.submissions.length = 2 ∧ server.shared.database.committedRows.length = 1 ∧
      Consistent (state 5) server.shared.tables server.shared.database.committedRows := by
  intro graphs requests
  have blake3 : Set.InjOn crates.blake3 (canonicalGraphs (state 5) requests) := by
    have h (i) : ((submission <| graphs i).validate (state 5)).toOption.map
        (fun matrix => (scoreGraph crates matrix 5).canonicalGraph6) = some (scoreGraph crates path3 5).canonicalGraph6 := by
      revert i
      decide +kernel
    have hmem : ∀ bytes ∈ canonicalGraphs (state 5) requests, bytes = (scoreGraph crates path3 5).canonicalGraph6 := by
      rintro _ ⟨req, scored, ⟨⟨i, hi⟩, matrix, hv, hs⟩, rfl⟩
      cases hi
      have h := h i
      rw [hv] at h
      subst hs
      exact Option.some.inj h
    exact fun a ha b hb _ => (hmem a ha).trans (hmem b hb).symm
  let turns : List (Fin 2 × Choice) :=
    (List.replicate 5 [turn 0 .none, turn 1 .none]).flatten ++ .replicate 9 (turn 0 .none) ++ .replicate 4 (turn 1 .none) ++
      [turn 0 <| .fails <| .sqlx "no connection", turn 1 .none, turn 0 .none, turn 1 .none]
  have ⟨server, e, h⟩ : ∃ server ∈ Machine.execute Server.step
      (Server.init (state 5) requests ⟨identities, [], [], [], []⟩ []) turns,
      server.shared.tables.submissions.length = 2 ∧ server.shared.database.committedRows.length = 1 := by
    decide +kernel
  have r : Machine.Run Server.step (fun _ _ => True) _ server := Machine.run_of_execute e
  exact ⟨server, r, h.1, h.2, records_consistent (state 5) (lawfulNauty _) ReferenceHex.lawful requests blake3 _ server r⟩
