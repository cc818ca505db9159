import Extremal.Server.Theorems.Records

open Lexicographic Store

-- The item of an answer shows a graph of the board, with the CID of the graph.
structure GraphItem.Shows (state : AppState) (n : Int32) (item : GraphItem) (graph : AdjacencyMatrix) : Prop where
  decodes : Graph6.decode item.graph6 = .ok graph
  order   : n.toInt = graph.n
  cid     : (computeCid state.lib (canonicalForm state.lib graph).1).toHex state.hex = item.cid

def AppState.scoreBytes (state : AppState) (graph : AdjacencyMatrix) : Word UInt8 :=
  ⟨(scoreGraph state.lib graph state.maxK).score.toScoreBytes state.maxK⟩

-- Items in the order of the scores of their graphs, with their ranks.
structure IsPage (state : AppState) (n : Int32) (limit offset : Int64) (items : List GraphItem) : Prop where
  length : items.length ≤ limit.toInt.toNat
  ranks  : ∀ (i : Nat) (item : GraphItem), items[i]? = some item → item.rank = .ofNat (offset.toInt.toNat + i + 1)
  shows  : ∀ item ∈ items, ∃ graph, item.Shows state n graph
  sorted : items.Pairwise fun a b => ∀ g g', Graph6.decode a.graph6 = .ok g → Graph6.decode b.graph6 = .ok g' →
    state.scoreBytes g ≤ state.scoreBytes g'

-- An entry joined with a graph that decodes to one with the CID and the score of the entry.
structure Store.Joined (state : AppState) (n : Int32) (p : LeaderboardEntry × Store.Graph) (graph : AdjacencyMatrix) :
    Prop where
  decodes    : Graph6.decode p.2.graph6 = .ok graph
  order      : n.toInt = graph.n
  cid        : (computeCid state.lib (canonicalForm state.lib graph).1).toHex state.hex = p.1.cid
  scoreBytes : state.scoreBytes graph = p.1.scoreBytes

theorem isPage_of_sorted {state : AppState} {n : Int32} {limit offset : Int64}
    {joined : List (LeaderboardEntry × Store.Graph)} (hj : ∀ p ∈ joined, ∃ graph, Store.Joined state n p graph)
    (hs : joined.Pairwise (·.1.scoreBytes ≤ ·.1.scoreBytes)) :
    let item (p : (LeaderboardEntry × Store.Graph) × Nat) : GraphItem :=
      { rank := .ofNat (p.2 + 1), cid := p.1.1.cid, graph6 := p.1.2.graph6 }
    IsPage state n limit offset <| (joined.zipIdx.map item).drop offset.toInt.toNat |>.take limit.toInt.toNat := by
  intro item
  have hsub : ((joined.zipIdx.map item).drop offset.toInt.toNat |>.take limit.toInt.toNat).Sublist (joined.zipIdx.map item) :=
    (List.take_sublist ..).trans <| List.drop_sublist ..
  constructor
  case length => exact List.length_take_le ..
  case ranks =>
    intro i x hx
    rw [List.getElem?_take] at hx
    have ⟨_, hx⟩ := Option.ite_none_right_eq_some.mp hx
    rw [List.getElem?_drop, List.getElem?_map, List.getElem?_zipIdx] at hx
    have ⟨p, hp, hx⟩ := Option.map_eq_some_iff.mp hx
    have ⟨q, _, hp⟩ := Option.map_eq_some_iff.mp hp
    subst hp hx
    simp [item, Nat.add_assoc]
  case shows =>
    intro x hx
    have ⟨p, hp, hx⟩ := List.mem_map.mp <| hsub.subset hx
    have ⟨graph, hg⟩ := hj p.1 <| List.fst_mem_of_mem_zipIdx hp
    subst hx
    exact ⟨graph, hg.decodes, hg.order, hg.cid⟩
  case sorted =>
    refine List.Pairwise.sublist hsub <| List.pairwise_map.mpr ?_
    have hz : joined.zipIdx.Pairwise fun p q => p.1.1.scoreBytes ≤ q.1.1.scoreBytes := by
      rw [← List.zipIdx_map_fst 0 joined] at hs
      exact (List.pairwise_map (f := Prod.fst)).mp hs
    refine hz.imp_of_mem fun {p q} hp hq hle g g' hg hg' => ?_
    have ⟨graph, h⟩ := hj p.1 <| List.fst_mem_of_mem_zipIdx hp
    have ⟨graph', h'⟩ := hj q.1 <| List.fst_mem_of_mem_zipIdx hq
    cases h.decodes.symm.trans hg
    cases h'.decodes.symm.trans hg'
    rwa [h.scoreBytes, h'.scoreBytes]

namespace ServerState

variable {state : AppState} {requests : Fin m → Request} {s s' : ServerState m} {req : SubmitRequest}
  {scored : ScoredGraph} {n : Int32} {limit offset : Int64} {scan : Scan}

section Rows

variable (nauty : state.lib.LawfulNauty)
include nauty

-- A stored graph decodes to one with the stored score.
theorem graphRow_score (h : Scored state requests req scored) {m : AdjacencyMatrix}
    (hd : Graph6.decode (req.graphRow state scored).graph6 = .ok m) :
    state.scoreBytes m = (req.scoreRow state scored).scoreBytes := by
  have ⟨_, matrix, hv, hs⟩ := h
  have ⟨hn, hle⟩ := validate_ok hv
  have hc := cleanOn_canonicalForm nauty hle
  have ⟨m', hd', _, hm⟩ := Graph6.decode_encode (m := (canonicalForm state.lib matrix).1) (by rwa [hc.1])
  have ⟨e⟩ := nonempty_canonicalIso nauty hle
  subst hs
  cases hd.symm.trans hd'
  rw [AppState.scoreBytes, scoreGraph_congr hm, ← scoreGraph_iso nauty hle e]
  rfl

variable (hex : state.hex.Lawful) (blake3 : Set.InjOn state.lib.blake3 (canonicalGraphs state requests))
include hex blake3

-- A row of a board joins with a graph whose score is that of the row.
theorem Recorded.joined (h : s.Recorded state requests) {e : LeaderboardEntry} {graph : Store.Graph}
    (he : e ∈ s.database.committedRows.board n) (hg : graph ∈ s.tables.graphs) (hc : graph.cid = e.cid) :
    ∃ m, Joined state n (e, graph) m := by
  have ⟨hm, hn⟩ := List.mem_filter.mp he
  have ⟨v, hv, hve⟩ := List.mem_map.mp hm
  have ⟨⟨req, scored, hs, hvn, hvc, hb⟩, _, _⟩ := h.versions v (List.mem_filter.mp hv).1
  have ⟨req', scored', hs', hgr⟩ := h.graphs graph hg
  subst hgr
  have hcid : SubmitRequest.cidHex state scored = SubmitRequest.cidHex state scored' := by
    rw [← hvc, hve]
    exact hc.symm
  have ⟨heq, hreq⟩ := scored_eq nauty hex blake3 hs hs' hcid
  subst heq
  have ⟨m, hd, ho, hcid⟩ := graphRow_decodes nauty hs'
  refine ⟨m, hd, ?_, hcid.trans hc, ?_⟩
  · have hn : e.n = n := by simpa using hn
    rw [← hn, ← hve, hvn, hreq]
    exact ho
  · rw [graphRow_score nauty hs' hd, ← hve, hb]
    rfl

-- The rows of the data layer are a page.
theorem Recorded.isPage (h : s.Recorded state requests) {rows : List LeaderboardGraphRow}
    (e : s.tables.getLeaderboardGraphs s.database.committedRows n scan limit offset = .ok rows) :
    IsPage state n limit offset (rows.map fun row => { rank := row.rank, cid := row.cid, graph6 := row.graph6 }) := by
  rw [Tables.getLeaderboardGraphs] at e
  split_ifs at e
  cases e
  generalize hj : ((scan.order <| s.database.committedRows.board n).flatMap fun e =>
    s.tables.graphs.filter (·.cid = e.cid) |>.map fun graph => (e, graph)) = entries
  have hj : ∀ p ∈ entries, ∃ m, Joined state n p m := by
    intro p hp
    rw [← hj] at hp
    have ⟨e, he, hp⟩ := List.mem_flatMap.mp hp
    have ⟨graph, hg, hp⟩ := List.mem_map.mp hp
    have ⟨hg, hc⟩ := List.mem_filter.mp hg
    subst hp
    exact h.joined nauty hex blake3 ((scan.perm _).mem_iff.mp he) hg (of_decide_eq_true hc)
  rw [List.map_take, List.map_drop, List.map_map]
  refine isPage_of_sorted (fun p hp => hj p ?_) <| List.pairwise_insertionSort (·.1.scoreBytes ≤ ·.1.scoreBytes) entries
  exact (List.perm_insertionSort ..).mem_iff.mp hp

end Rows
-- The result of a request for graphs is a page of its board.
def Pages (state : AppState) (request : Request) (result : Except ApiError Response) : Prop :=
  ∀ items, result = .ok (.graphs items) → ∃ n limit offset, request = .graphs n limit offset ∧
    IsPage state n limit offset items

-- What a handler may put into the cache and into its response.
def permits (state : AppState) (request : Request) : Call → Prop
  | .setGraphs n limit offset graphs => IsPage state n limit offset graphs
  | .respond result                  => Pages state request result
  | _                                => True

-- What a handler may expect of the cache and of the data layer.
def promises (state : AppState) : (call : Call) → call.Answer → Prop
  | .getGraphs n limit offset, items => ∀ graphs ∈ items, IsPage state n limit offset graphs
  | .store (.getLeaderboardGraphs n limit offset), answer =>
    ∀ rows : List LeaderboardGraphRow, (answer : Except StoreError (List LeaderboardGraphRow)) = .ok rows →
      IsPage state n limit offset (rows.map fun row => { rank := row.rank, cid := row.cid, graph6 := row.graph6 })
  | _, _ => True

structure Paged (state : AppState) (requests : Fin m → Request) (s : ServerState m) : Prop where
  cache : ∀ n limit offset entry, s.cache.graphs (n, limit, offset) = some entry → IsPage state n limit offset entry.value
  log   : ∀ i result seen, .responded i result seen ∈ s.log → Pages state (requests i) result

section Contract

open Handler

variable {request : Request} {i : Fin m} {call : Call} {choice : Choice} {α : Type}

-- A handler that keeps the contract, whatever it returns.
abbrev Tame (state : AppState) (request : Request) (p : Handler α) : Prop :=
  p.Meets (permits state request) (promises state) fun _ => True

theorem Tame.bind {p : Handler β} {f : β → Handler α} (h : Tame state request p) (hf : ∀ b, Tame state request (f b)) :
    Tame state request (p >>= f) :=
  Program.Meets.bind h (fun b _ => hf b) fun _ _ => trivial

theorem tame_ret (a : α) : Tame state request (.ret a) :=
  trivial

theorem tame_store (query : Query) : Tame state request (store query) := by
  refine ⟨trivial, fun r _ => ?_⟩
  cases r <;> trivial

theorem tame_ofExcept (x : Except ApiError α) : Tame state request (.ofExcept x) :=
  Program.meets_ofExcept trivial

theorem tame_perform (h : permits state request call) : Tame state request (.perform call) :=
  Program.meets_perform h fun _ _ => trivial

theorem tame_perform_bind {f : call.Answer → Handler α} (h : permits state request call)
    (hf : ∀ r, Tame state request (f r)) : Tame state request (.perform call >>= f) :=
  (tame_perform h).bind hf

theorem tame_invalidate (n : Int32) : Tame state request (invalidate n) := by
  refine tame_perform_bind trivial fun _ => ?_
  refine tame_perform_bind trivial fun _ => ?_
  exact tame_perform trivial

theorem tame_checkSubmission (req : SubmitRequest) : Tame state request (checkSubmission state req) := by
  refine (tame_ofExcept _).bind fun matrix => ?_
  refine (tame_store _).bind fun identity => ?_
  refine (tame_ofExcept _).bind fun _ => ?_
  refine tame_perform_bind trivial fun task => ?_
  cases task <;> trivial

theorem tame_recordSubmission (req : SubmitRequest) (scored : ScoredGraph) :
    Tame state request (recordSubmission state req scored) := by
  refine (tame_store _).bind fun _ => ?_
  refine (tame_store _).bind fun _ => ?_
  refine (tame_store _).bind fun _ => ?_
  refine (tame_store _).bind fun rank => ?_
  refine (tame_store _).bind fun _ => ?_
  cases rank
  case none => exact tame_ret _
  case some => exact (tame_invalidate _).bind fun _ => tame_ret _

theorem tame_getThreshold (n : Int32) : Tame state request (getThreshold state n) := by
  refine tame_perform_bind trivial fun cached => ?_
  cases cached
  case some => exact tame_ret _
  case none =>
    refine (tame_store _).bind fun count => ?_
    refine (tame_store _).bind fun threshold => ?_
    exact tame_perform_bind trivial fun _ => tame_ret _

theorem tame_getCids (n : Int32) (since : Option Nat) : Tame state request (getCids n since) := by
  cases since
  case some => exact tame_store _
  case none =>
    refine tame_perform_bind trivial fun cached => ?_
    cases cached
    case some => exact tame_ret _
    case none =>
      refine (tame_store _).bind fun cids => ?_
      exact tame_perform_bind trivial fun _ => tame_ret _

theorem meets_getGraphs (n : Int32) (limit offset : Int64) :
    (getGraphs n limit offset).Meets (permits state request) (promises state)
      fun r => ∀ items, r = .ok items → IsPage state n limit offset items := by
  refine ⟨trivial, fun cached hc => ?_⟩
  cases cached
  case some items =>
    rintro _ ⟨⟩
    exact hc items rfl
  case none =>
    refine ⟨trivial, fun r hr => ?_⟩
    cases r
    case error => nofun
    case ok rows =>
      have hp := hr rows rfl
      refine ⟨hp, fun _ _ => ?_⟩
      rintro _ ⟨⟩
      exact hp

theorem meets_handle (request : Request) :
    (handle state request).Meets (permits state request) (promises state) (Pages state request) := by
  cases request
  case submit req =>
    have h : Tame state (.submit req) (submitGraph state req) :=
      (tame_checkSubmission req).bind fun scored => tame_recordSubmission req scored
    exact Program.Meets.bind h (fun _ _ => nofun) fun _ _ => nofun
  case threshold n  => exact Program.Meets.bind (tame_getThreshold n) (fun _ _ => nofun) fun _ _ => nofun
  case cids n since => exact Program.Meets.bind (tame_getCids n since) (fun _ _ => nofun) fun _ _ => nofun
  case graphs n limit offset =>
    refine (meets_getGraphs n limit offset).bind (fun items hi => ?_) fun _ _ => nofun
    rintro _ ⟨⟩
    exact ⟨n, limit, offset, rfl, hi items rfl⟩

theorem meets_serve (request : Request) :
    (serve state request).Meets (permits state request) (promises state) fun _ => True :=
  (meets_handle request).attempt fun _ h => Program.meets_perform h fun _ _ => trivial

theorem Paged.congr (h : s.Paged state requests) (hc : s'.cache.graphs = s.cache.graphs) (hl : s'.log = s.log) :
    s'.Paged state requests :=
  ⟨hc ▸ h.cache, hl ▸ h.log⟩

-- A query leaves the cache and the log alone.
theorem query_frame {query : Query} {r : Option (Except StoreError query.Answer)}
    (e : s.query i choice query = some (s', r)) : s'.cache = s.cache ∧ s'.log = s.log := by
  cases query
  case tryAdmit => cases tryAdmit_cases e <;> exact ⟨rfl, rfl⟩
  case leaderboardCount | leaderboardThreshold | getLeaderboardCids | getLeaderboardGraphs =>
    unfold ServerState.query at e
    cases read_cases e <;> exact ⟨rfl, rfl⟩
  all_goals cases write_cases e <;> exact ⟨rfl, rfl⟩

variable (nauty : state.lib.LawfulNauty) (hex : state.hex.Lawful)
  (blake3 : Set.InjOn state.lib.blake3 (canonicalGraphs state requests))
include nauty hex blake3

-- The cache and the data layer keep their promises.
theorem Paged.perform {r : Option call.Answer} (h : s.Paged state requests) (hr : s.Recorded state requests)
    (hc : permits state (requests i) call) (e : ServerState.perform i call s choice = some (s', r)) :
    s'.Paged state requests ∧ ∀ a ∈ r, promises state call a := by
  cases call
  case spawnBlocking =>
    cases e
    exact ⟨h, fun _ _ => trivial⟩
  case store query =>
    have ⟨hc, hl⟩ := query_frame e
    refine ⟨h.congr (congrArg LeaderboardCache.graphs hc) hl, ?_⟩
    cases query
    case getLeaderboardGraphs n limit offset =>
      unfold ServerState.perform ServerState.query at e
      cases read_cases e
      case ok =>
        rintro _ ⟨⟩ rows hrows
        exact hr.isPage nauty hex blake3 hrows
      case fails =>
        rintro _ ⟨⟩ rows hrows
        cases hrows
    all_goals exact fun _ _ => trivial
  case getThreshold n | getCids n =>
    cases lookup_cases e <;> exact ⟨h.congr rfl rfl, fun _ _ => trivial⟩
  case getGraphs n limit offset =>
    cases lookup_cases e
    case miss =>
      refine ⟨h, ?_⟩
      rintro _ ⟨⟩ _ ⟨⟩
    case hit entry he =>
      refine ⟨h.congr rfl rfl, ?_⟩
      rintro _ ⟨⟩ _ ⟨⟩
      exact h.cache n limit offset entry he
  case setThreshold | setCids =>
    cases e
    exact ⟨h.congr rfl rfl, fun _ _ => trivial⟩
  case setGraphs n limit offset graphs =>
    cases e
    refine ⟨⟨fun n' limit' offset' entry he => ?_, h.log⟩, fun _ _ => trivial⟩
    by_cases hk : (n', limit', offset') = (n, limit, offset)
    case pos =>
      cases hk
      rw [LeaderboardCache.setGraphs] at he
      dsimp only at he
      rw [Function.update_self] at he
      cases he
      exact hc
    case neg =>
      rw [LeaderboardCache.setGraphs] at he
      dsimp only at he
      rw [Function.update_of_ne hk] at he
      exact h.cache _ _ _ _ he
  case remove map n =>
    cases e
    refine ⟨⟨fun n' limit offset entry he => ?_, fun j result seen hm => ?_⟩, fun _ _ => trivial⟩
    · cases map
      case graphs =>
        have he := (Option.ite_none_left_eq_some.mp he).2
        exact h.cache _ _ _ _ he
      all_goals exact h.cache _ _ _ _ he
    · exact h.log j result seen <| by simpa using hm
  case respond result =>
    cases e
    refine ⟨⟨h.cache, fun j result' seen hm => ?_⟩, fun _ _ => trivial⟩
    rcases List.mem_append.mp hm with hm | hm
    · exact h.log j result' seen hm
    · cases List.mem_singleton.mp hm
      exact hc

theorem paged_of_run {identities : List Identity} {server : Server m}
    (r : Machine.Run Server.step (fun _ _ => True) (Server.init state requests ⟨identities, [], [], [], []⟩ []) server) :
    server.shared.Paged state requests := by
  have hr := r.strengthen (Q := fun server => server.shared.Recorded state requests) recorded_run
  have hr : Machine.Run (Pool.step ServerState.perform) (Pool.Allows fun _ _ s _ => s.Recorded state requests)
      (Server.init state requests ⟨identities, [], [], [], []⟩ []) server :=
    hr.mono fun _ _ h _ _ _ => h.2
  have h₀ : (ServerState.init ⟨identities, [], [], [], []⟩ [] : ServerState m).Paged state requests :=
    ⟨nofun, nofun⟩
  exact Pool.run_of_meets (fun h hr hc e => h.perform nauty hex blake3 hr hc e) hr h₀ fun i => meets_serve (requests i)

end Contract

-- In every run from empty tables, whatever calls fail, each answer to a request for graphs, cached or not, is a page of
-- the board: at most as many graphs as asked for, ranked from the offset on and in the order of their scores, each with
-- as many vertices as the board says and with its own CID.
theorem graphs_answered (state : AppState) (nauty : state.lib.LawfulNauty) (hex : state.hex.Lawful)
    (requests : Fin m → Request) (blake3 : Set.InjOn state.lib.blake3 (canonicalGraphs state requests))
    (identities : List Identity) (server : Server m)
    (r : Machine.Run Server.step (fun _ _ => True) (Server.init state requests ⟨identities, [], [], [], []⟩ []) server) :
    ∀ i n limit offset items seen, requests i = .graphs n limit offset →
      .responded i (.ok (.graphs items)) seen ∈ server.shared.log → IsPage state n limit offset items := by
  have h := paged_of_run nauty hex blake3 r
  intro i n limit offset items seen hi hm
  have ⟨n', limit', offset', hi', hp⟩ := h.log i _ seen hm items rfl
  cases hi.symm.trans hi'
  exact hp

end ServerState

namespace ReferenceServer

-- A submission of a path, and a reader of the graphs of its board.
def graphReader (i : Fin 2) : Request :=
  if i.val = 0 then .submit <| submission ReferenceNauty.path3 else .graphs 3 10 0

-- The number of graphs in the answer to the reader.
def answerLength : TrafficEvent 2 → Option Nat
  | .responded i (.ok (.graphs items)) _ => if i.val = 1 then some items.length else none
  | _                                    => none

theorem injOn_graphReader : Set.InjOn (state 5).lib.blake3 (ServerState.canonicalGraphs (state 5) graphReader) := by
  rintro a ⟨req, scored, ⟨⟨i, hi⟩, matrix, hv, hs⟩, ha⟩ b ⟨req', scored', ⟨⟨i', hi'⟩, matrix', hv', hs'⟩, hb⟩ _
  have hreq {i req} (h : graphReader i = .submit req) : submission ReferenceNauty.path3 = req := by
    rw [graphReader] at h
    split_ifs at h
    exact Request.submit.inj h
  have hr  := hreq hi
  have hr' := hreq hi'
  subst hr hr'
  cases hv.symm.trans hv'
  rw [ha, hb, hs, hs']

end ReferenceServer

open ReferenceServer in
theorem ServerState.path3_answered :
    ∃ server, Machine.Run Server.step (fun _ _ => True)
        (Server.init (state 5) graphReader ⟨identities, [], [], [], []⟩ []) server ∧
      ∃ items seen, .responded 1 (.ok (.graphs items)) seen ∈ server.shared.log ∧ items.length = 1 ∧
        IsPage (state 5) 3 10 0 items := by
  have ⟨server, e, event, hm, hl⟩ : ∃ server ∈ Machine.execute Server.step
      (Server.init (state 5) graphReader ⟨identities, [], [], [], []⟩ [])
      (.replicate 19 (turn 0 .none) ++ .replicate 4 (turn 1 .none)),
      ∃ event ∈ server.shared.log, answerLength event = some 1 := by decide +kernel
  have r : Machine.Run Server.step (fun _ _ => True) _ server := Machine.run_of_execute e
  have ⟨items, seen, he, hc⟩ : ∃ items seen, event = .responded 1 (.ok (.graphs items)) seen ∧ items.length = 1 := by
    unfold answerLength at hl
    split at hl
    case h_2              => cases hl
    case h_1 i items seen =>
      split_ifs at hl with hi
      exact ⟨items, seen, by rw [Fin.ext (a := i) (b := 1) hi], Option.some_inj.mp hl⟩
  subst he
  exact ⟨server, r, items, seen, hm, hc, graphs_answered (state 5) (ReferenceNauty.lawfulNauty _) ReferenceHex.lawful
    graphReader injOn_graphReader identities server r 1 3 10 0 items seen rfl hm⟩
