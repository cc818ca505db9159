import Extremal.Network
import Extremal.Server.Theorems.Graphs
import Extremal.Server.Theorems.Responses
import Extremal.Worker.Theorems.Client

open Lexicographic Store

theorem AdjacencyMatrix.IsRamsey.congr {m₁ m₂ : AdjacencyMatrix} {n k ell : Nat} (hr : m₂.IsRamsey n k ell)
    (h : m₁.SameEdges m₂) : m₁.IsRamsey n k ell := by
  obtain ⟨n₁, bits₁, length₁⟩ := m₁
  obtain ⟨n₂, bits₂, length₂⟩ := m₂
  have hn : n₁ = n₂ := h.n
  subst hn
  have hg : graph ⟨n₁, bits₁, length₁⟩ = graph ⟨n₁, bits₂, length₂⟩ := by
    ext i j
    simp [graph, h.edge i j i.isLt j.isLt]
  exact ⟨⟨hg ▸ hr.clique, hg ▸ hr.indep⟩, hr.order⟩

theorem EngineState.mem_newlySubmitted {s : EngineState} {input : EngineInput} {d : ScoredDiscovery}
    (h : d ∈ s.newlySubmitted input) : input = .submit true ∧ ∃ rest, s.stage = .submitting (d :: rest) := by
  unfold newlySubmitted at h
  split at h
  case h_1 _ rest hs =>
    obtain rfl := List.mem_singleton.mp h
    exact ⟨rfl, rest, hs⟩
  case h_2 => cases h

-- The server decodes the graph that has been encoded for a request.
theorem SubmitRequest.sameEdges_of_validate {state : AppState} {req : SubmitRequest} {matrix graph : AdjacencyMatrix}
    (h : req.validate state = .ok matrix) (hg : req.graph6 = Graph6.encode graph) (hn : graph.n ≤ 62) :
    matrix.SameEdges graph := by
  have ⟨matrix', hd, _, he⟩ := Graph6.decode_encode hn
  have h := decodeRequest_of_validate h
  simp only [decodeRequest, hg, hd] at h
  split_ifs at h
  cases h
  exact he

-- What a worker asks for: the board of its graphs, and the verdict on a discovery.
def Request.Genuine (crates : IdentityCrates) (options : WorkerOptions) : Request → Prop
  | .threshold n | .cids n _ | .graphs n _ _ => n = .ofNat options.setup.config.n
  | .submit req => ∃ d : ScoredDiscovery, d.Sound options.setup.engine options.setup.config.n options.setup.targetEll ∧
    options.client.submitRequest crates options.setup.config.n (Graph6.encode d.graph) options.metadata = .ok req

namespace Worker

variable {crates : IdentityCrates} {options : WorkerOptions} {w w' : Worker} {request : Request} {input : WorkerInput}
  {response : Response} {now : Nat} {cid : GraphCid}

theorem Sound.genuine (h : w.Sound options.setup) (e : w.request? crates options = some request) :
    request.Genuine crates options := by
  have hn := h.target.n
  rw [request?] at e
  split at e
  case isTrue =>
    cases e
    exact congrArg _ hn
  case isFalse =>
    split at e
    case h_1 =>
      cases e
      exact congrArg _ hn
    case h_2 =>
      cases e
      exact congrArg _ hn
    case h_3 d rest hs =>
      obtain ⟨req, hr, e⟩ := Option.map_eq_some_iff.mp e
      subst e
      have hd : d ∈ w.engine.held := by simp [EngineState.held, EngineStage.batch, hs]
      refine ⟨d, h.engine.held d hd, ?_⟩
      rw [ServerClient.submitDiscovery, hn] at hr
      generalize options.client.submitRequest .. = result at hr ⊢
      cases result
      case error => cases hr
      case ok    => cases hr; rfl
    case h_4 => cases e

theorem submit_of_request? {d : ScoredDiscovery} {rest : List ScoredDiscovery} (hf : ¬w.fetching)
    (hs : w.engine.stage = .submitting (d :: rest)) (e : w.request? crates options = some request) :
    ∃ req, options.client.submitDiscovery crates options.metadata w.engine d = .ok req ∧ request = .submit req := by
  rw [request?, if_neg hf, hs] at e
  obtain ⟨req, hr, e⟩ := Option.map_eq_some_iff.mp e
  refine ⟨req, ?_, e.symm⟩
  generalize options.client.submitDiscovery .. = result at hr ⊢
  cases result
  case error => cases hr
  case ok    => cases hr; rfl

theorem graphs_of_request? (hf : w.fetching) (e : w.request? crates options = some request) :
    ∃ limit, request = .graphs (.ofNat w.engine.config.n) limit 0 := by
  rw [request?, if_pos hf] at e
  cases e
  exact ⟨_, rfl⟩

theorem graphs_of_reply? {answer : Option Response} {graphs : List (List UInt8)}
    (e : w.reply? answer now = some (.graphs <| some graphs)) :
    w.fetching ∧ ∃ items, answer = some (.graphs items) ∧ graphs = items.map (·.graph6) := by
  unfold reply? at e
  split at e
  case isTrue hf =>
    split at e <;> cases e
    exact ⟨hf, _, rfl, rfl⟩
  case isFalse => split at e <;> cases e

theorem submitted_of_reply? {answer : Option Response} (e : w.reply? answer now = some (.engine <| .submit true)) :
    ¬w.fetching ∧ ∃ response, answer = some (.submitted response) := by
  unfold reply? at e
  split at e
  case isTrue        => split at e <;> cases e
  case isFalse hf =>
    split at e <;> cases e
    exact ⟨hf, _, rfl⟩

-- A worker learns of a submission only from its client.
theorem submitted_of_step {setup : WorkerSetup} (e : w.step setup input = some w') (hm : .submitted cid true ∈ w'.engine.log) :
    .submitted cid true ∈ w.engine.log ∨
      input = .engine (.submit true) ∧ ∃ d rest, w.engine.stage = .submitting (d :: rest) ∧ cid = d.cid := by
  have hl {input engine} (he : w.engine.step setup.engine input = some engine) (hm : .submitted cid true ∈ engine.log) :
      .submitted cid true ∈ w.engine.log ∨
        input = .submit true ∧ ∃ d rest, w.engine.stage = .submitting (d :: rest) ∧ cid = d.cid := by
    obtain ⟨events, hl, _, _, hs⟩ := (EngineState.accounts_step he).log
    rw [hl] at hm
    refine (List.mem_append.mp hm).imp_right fun hm => ?_
    have hc : cid ∈ events.filterMap (·.submittedCid) := List.mem_filterMap.mpr ⟨_, hm, rfl⟩
    rw [hs] at hc
    obtain ⟨d, hd, rfl⟩ := List.mem_map.mp hc
    obtain ⟨hi, rest, hs⟩ := EngineState.mem_newlySubmitted hd
    exact ⟨hi, d, rest, hs, rfl⟩
  cases input
  case engine input =>
    obtain ⟨engine, he, rfl⟩ : ∃ engine, w.engine.step setup.engine input = some engine ∧
        { w with engine, fetching := w.fetches engine input } = w' := by
      cases input
      case search => cases e
      all_goals exact Option.map_eq_some_iff.mp e
    exact (hl he hm).imp_right fun h => ⟨congrArg _ h.1, h.2⟩
  case graphs response =>
    obtain ⟨_, e⟩ := Option.ite_none_right_eq_some.mp e
    cases e
    exact .inl hm
  case search chance =>
    obtain ⟨_, e⟩ := Option.ite_none_left_eq_some.mp e
    obtain ⟨job, hj, e⟩ := Option.bind_eq_some_iff.mp e
    obtain ⟨engine, he, e⟩ := Option.bind_eq_some_iff.mp e
    have hw : w'.engine = engine := by
      split at e
      case h_1 =>
        obtain ⟨_, _, e⟩ := Option.bind_eq_some_iff.mp e
        cases e
        rfl
      case h_2 =>
        cases e
        rfl
    exact (hl he <| hw ▸ hm).imp_right fun h => by cases h.1
  case panic chance =>
    obtain ⟨_, e⟩ := Option.ite_none_left_eq_some.mp e
    obtain ⟨job, hj, e⟩ := Option.bind_eq_some_iff.mp e
    obtain ⟨engine, he, e⟩ := Option.bind_eq_some_iff.mp e
    cases e
    exact (hl he hm).imp_right fun h => by cases h.1

end Worker

theorem ServerState.mem_log_of_response? {s : ServerState m} {tx : Fin m} {response : Response}
    (e : s.response? tx = some response) : ∃ seen, .responded tx (.ok response) seen ∈ s.log := by
  obtain ⟨event, hm, e⟩ := List.exists_of_findSome?_eq_some e
  split at e
  case h_2 => cases e
  case h_1 tx' response' seen =>
    simp only [Option.ite_none_right_eq_some, Option.some.injEq] at e
    obtain ⟨rfl, rfl⟩ := e
    exact ⟨seen, hm⟩

namespace Network

variable {crates : IdentityCrates} {options : Fin w → WorkerOptions} {state : AppState} {s s' : Network w m}
  {identities : List Identity} {requests : Fin m → Request}

-- The inputs that a worker gets: its own ones, and what its client makes of a failure or of a response.
inductive Hears (s : Network w m) (i : Fin w) : WorkerInput → Prop
  | own (h : ¬input.isReply) : Hears s i input
  | failed (h : (s.workers i).reply? none now = some input) : Hears s i input
  | answered (ha : s.awaits i = some tx) (hm : .responded tx (.ok response) seen ∈ s.server.shared.log)
    (h : (s.workers i).reply? (some response) now = some input) : Hears s i input

-- What a step may do.
inductive Effect (crates : IdentityCrates) (options : Fin w → WorkerOptions) (state : AppState) (s : Network w m) :
    Network w m → Prop
  | tells (hi : s.Hears i input) (e : (s.workers i).step (options i).setup input = some worker) :
    Effect crates options state s { s with
      workers := Function.update s.workers i worker
      awaits  := Function.update s.awaits i none }
  | posts (hf : s.posted tx = none) (ha : s.awaits i = none)
    (hr : (s.workers i).request? crates (options i) = some request) :
    Effect crates options state s { s with
      awaits := Function.update s.awaits i tx
      posted := Function.update s.posted tx (some ⟨i, request⟩)
      server := s.server.start tx <| serve state request }
  | other (hf : s.posted tx = none) : Effect crates options state s { s with
      posted := Function.update s.posted tx (some ⟨none, request⟩)
      server := s.server.start tx <| serve state request }
  | serves (hp : (s.posted turn.1).isSome) (e : s.server.step turn = some next) :
    Effect crates options state s { s with server := next }

theorem tell_effect {i : Fin w} {input : WorkerInput} (hi : s.Hears i input) (e : s.tell options i input = some s') :
    Effect crates options state s s' := by
  obtain ⟨worker, he, rfl⟩ := Option.map_eq_some_iff.mp e
  exact .tells hi he

theorem post_eq_some {tx : Fin m} {posted : Posted w} (e : s.post state tx posted = some s') : s.posted tx = none ∧
    s' = { s with
      posted := Function.update s.posted tx posted
      server := s.server.start tx <| serve state posted.request } := by
  obtain ⟨hf, e⟩ := Option.ite_none_left_eq_some.mp e
  cases e
  exact ⟨by simpa using hf, rfl⟩

theorem step_effect {input : NetworkInput w m} (e : s.step crates options state input = some s') :
    Effect crates options state s s' := by
  cases input
  case worker i input =>
    obtain ⟨hi, e⟩ := Option.ite_none_left_eq_some.mp e
    exact tell_effect (.own fun h => hi <| .inl h) e
  case post i tx =>
    obtain ⟨ha, e⟩ := Option.ite_none_left_eq_some.mp e
    obtain ⟨request, hr, e⟩ := Option.bind_eq_some_iff.mp e
    obtain ⟨t, hp, e⟩ := Option.bind_eq_some_iff.mp e
    obtain ⟨hf, rfl⟩ := post_eq_some hp
    cases e
    exact .posts hf (by simpa using ha) hr
  case other tx request =>
    obtain ⟨hf, rfl⟩ := post_eq_some e
    exact .other hf
  case turn turn =>
    obtain ⟨hp, e⟩ := Option.ite_none_right_eq_some.mp e
    obtain ⟨server, he, rfl⟩ := Option.map_eq_some_iff.mp e
    exact .serves hp he
  case answer i now =>
    obtain ⟨tx, ha, e⟩ := Option.bind_eq_some_iff.mp e
    obtain ⟨response, hr, e⟩ := Option.bind_eq_some_iff.mp e
    obtain ⟨input, hi, e⟩ := Option.bind_eq_some_iff.mp e
    have ⟨seen, hm⟩ := ServerState.mem_log_of_response? hr
    exact tell_effect (.answered ha hm hi) e
  case fail i now =>
    obtain ⟨input, hi, e⟩ := Option.bind_eq_some_iff.mp e
    exact tell_effect (.failed hi) e

-- The requests are the ones that have been posted, and the ones that are still to be posted.
def Foretold (requests : Fin m → Request) (s : Network w m) : Prop :=
  ∀ tx p, s.posted tx = some p → requests tx = p.request

-- The server with the requests that are still to be posted.
def foretell (state : AppState) (requests : Fin m → Request) (s : Network w m) : Server m :=
  s.server.foretell (fun tx => (s.posted tx).isSome) fun tx => serve state (requests tx)

-- A discovery with a CID has been submitted by a worker, and everything about it is stored.
structure Filed (crates : IdentityCrates) (options : WorkerOptions) (state : AppState) (s : Network w m) (i : Fin w)
    (cid : GraphCid) (tx : Fin m) (req : SubmitRequest) (graph : AdjacencyMatrix) : Prop where
  valid  : graph.IsRamsey options.setup.config.n options.setup.engine.maxK options.setup.targetEll
  isCid  : cid = canonicalCid options.setup.lib graph
  asked  : options.client.submitRequest crates options.setup.config.n (Graph6.encode graph) options.metadata = .ok req
  posted : s.posted tx = some ⟨i, .submit req⟩
  onFile : ServerState.OnFile state req (scoreGraph state.lib graph state.maxK) s.server.shared.tables

structure Sound (crates : IdentityCrates) (options : Fin w → WorkerOptions) (state : AppState) (s : Network w m) :
    Prop where
  workers : ∀ i, (s.workers i).Sound (options i).setup
  posted  : ∀ tx i request, s.posted tx = some ⟨some i, request⟩ → request.Genuine crates (options i)
  awaits  : ∀ i tx, s.awaits i = some tx → ∃ request, s.posted tx = some ⟨some i, request⟩ ∧
    (s.workers i).request? crates (options i) = some request
  filed   : ∀ i cid, .submitted cid true ∈ (s.workers i).engine.log → ∃ tx req graph,
    s.Filed crates (options i) state i cid tx req graph

theorem Effect.posted_mono (h : Effect crates options state s s') {tx : Fin m} {p : Posted w} (hp : s.posted tx = some p) :
    s'.posted tx = some p := by
  cases h
  case tells | serves => exact hp
  case posts tx' i request hf _ _ | other tx' request hf =>
    have hne : tx ≠ tx' := by
      rintro rfl
      cases hp.symm.trans hf
    exact (Function.update_of_ne hne ..).trans hp

theorem Effect.foretold (h : Effect crates options state s s') (hf : s'.Foretold requests) : s.Foretold requests :=
  fun tx p hp => hf tx p <| h.posted_mono hp

theorem foretell_post {tx : Fin m} {p : Posted w} (hp : s.posted tx = none) (hr : requests tx = p.request)
    (awaits : Fin w → Option (Fin m)) : foretell state requests { s with
      awaits
      posted := Function.update s.posted tx (some p)
      server := s.server.start tx <| serve state p.request } = s.foretell state requests := by
  have h : (s.server.start tx <| serve state (requests tx)).foretell
      (Function.update (fun tx => (s.posted tx).isSome) tx true) (fun tx => serve state (requests tx)) =
        s.foretell state requests :=
    Pool.foretell_start <| by simp [hp]
  rw [← h, foretell, hr]
  congr 1
  funext tx'
  by_cases ht : tx' = tx
  case pos => simp [ht]
  case neg => simp [ht]

-- The server handles the posted requests as it would handle them if all requests had been there all the time.
theorem run_foretell (r : Machine.Run Server.step (fun _ _ => True)
      (Server.init state requests ⟨identities, [], [], [], []⟩ []) (s.foretell state requests))
    (h : Effect crates options state s s') (hf : s'.Foretold requests) : Machine.Run Server.step (fun _ _ => True)
      (Server.init state requests ⟨identities, [], [], [], []⟩ []) (s'.foretell state requests) := by
  cases h
  case tells => exact r
  case posts tx i request hp _ _ =>
    rwa [foretell_post hp <| hf tx ⟨_, request⟩ <| Function.update_self ..]
  case other tx request hp =>
    rwa [show foretell state requests { s with
      posted := Function.update s.posted tx (some ⟨none, request⟩)
      server := s.server.start tx <| serve state request } = _ from
      foretell_post hp (hf tx ⟨none, request⟩ <| Function.update_self ..) s.awaits]
  case serves hp e => exact r.step trivial <| Pool.foretell_step hp e

section Sound

variable {i : Fin w} {input : WorkerInput}

theorem Sound.fits (h : s.Sound crates options state) (hs : (options i).setup.Admissible)
    (hp : s.server.shared.Paged state requests) (hf : s.Foretold requests) (hi : s.Hears i input) :
    input.Fits (options i).setup.config.n := by
  have hn := (h.workers i).target.n
  have hle := hs.le
  cases input
  case engine | search | panic => trivial
  case graphs answer =>
    cases answer
    case none => trivial
    case some graphs =>
      cases hi
      case own h => exact absurd rfl h
      case failed e =>
        obtain ⟨_, _, he, _⟩ := Worker.graphs_of_reply? e
        cases he
      case answered ha hm e =>
        obtain ⟨hw, items, he, rfl⟩ := Worker.graphs_of_reply? e
        cases he
        obtain ⟨request, ht, hr⟩ := h.awaits _ _ ha
        obtain ⟨limit, rfl⟩ := Worker.graphs_of_request? hw hr
        obtain ⟨n, limit', offset, e, hpage⟩ := hp.log _ _ _ hm items rfl
        cases (hf _ _ ht).symm.trans e
        refine hpage.fitGraphs ?_
        rw [hn]
        exact Int32.toInt_ofNat_of_lt (by omega)

-- What a worker has counted as submitted has been answered by the server, which has stored it before.
theorem Sound.filed_step {worker : Worker} {cid : GraphCid} (h : s.Sound crates options state) (hs : (options i).setup.Admissible)
    (ha : s.server.shared.Honest state requests) (hf : s.Foretold requests) (hi : s.Hears i input)
    (e : (s.workers i).step (options i).setup input = some worker) (hm : .submitted cid true ∈ worker.engine.log) :
    ∃ tx req graph, s.Filed crates (options i) state i cid tx req graph := by
  rcases Worker.submitted_of_step e hm with hm | ⟨rfl, d, rest, hd, rfl⟩
  case inl => exact h.filed i cid hm
  case inr =>
    have hw := h.workers i
    have hheld : d ∈ (s.workers i).engine.held := by simp [EngineState.held, EngineStage.batch, hd]
    have hsound := hw.engine.held d hheld
    cases hi
    case own h => exact absurd rfl h
    case failed e =>
      obtain ⟨_, _, he⟩ := Worker.submitted_of_reply? e
      cases he
    case answered tx response seen now hr hm e =>
      obtain ⟨hf', response', he⟩ := Worker.submitted_of_reply? e
      cases he
      obtain ⟨request, hp, hr⟩ := h.awaits _ _ hr
      obtain ⟨req, hreq, rfl⟩ := Worker.submit_of_request? hf' hd hr
      obtain ⟨req', matrix, he, hv, hc⟩ := ha _ _ _ hm response' rfl
      cases (hf _ _ hp).symm.trans he
      rw [ServerClient.submitDiscovery, hw.target.n] at hreq
      have hg : req.graph6 = Graph6.encode d.graph := by
        rw [ServerClient.submitRequest] at hreq
        split at hreq <;> cases hreq
        rfl
      have he := SubmitRequest.sameEdges_of_validate hv hg (hsound.valid.order ▸ hs.le)
      exact ⟨tx, req, d.graph, hsound.valid, hsound.cid, hreq, hp, scoreGraph_congr he state.maxK ▸ hc.onFile⟩

theorem Filed.mono {cid : GraphCid} {tx : Fin m} {req : SubmitRequest} {graph : AdjacencyMatrix} {setup : WorkerOptions}
    (h : s.Filed crates setup state i cid tx req graph) (hp : s'.posted tx = s.posted tx)
    (ht : s.server.shared.tables.Extends s'.server.shared.tables) : s'.Filed crates setup state i cid tx req graph :=
  ⟨h.valid, h.isCid, h.asked, hp.trans h.posted, h.onFile.extend ht⟩

variable (h : s.Sound crates options state)
include h

theorem Sound.tells {worker : Worker} (hs : (options i).setup.Admissible) (hp : s.server.shared.Paged state requests)
    (ha : s.server.shared.Honest state requests) (hf : s.Foretold requests) (hi : s.Hears i input)
    (e : (s.workers i).step (options i).setup input = some worker) : Sound crates options state { s with
      workers := Function.update s.workers i worker
      awaits  := Function.update s.awaits i none } := by
  constructor
  case workers =>
    refine (Function.forall_update_iff s.workers fun j worker => worker.Sound (options j).setup).mpr ⟨?_, fun j _ => h.workers j⟩
    exact (h.workers i).step hs (h.fits hs hp hf hi) e
  case posted => exact h.posted
  case awaits =>
    refine (Function.forall_update_iff s.awaits fun j awaited => ∀ tx, awaited = some tx → ∃ request,
      s.posted tx = some ⟨some j, request⟩ ∧
      (Function.update s.workers i worker j).request? crates (options j) = some request).mpr ⟨nofun, fun j hj => ?_⟩
    rw [Function.update_of_ne hj]
    exact h.awaits j
  case filed =>
    have hfiled := (Function.forall_update_iff s.workers (a := i) (b := worker) fun j worker =>
      ∀ cid, EngineEvent.submitted cid true ∈ worker.engine.log →
        ∃ tx req graph, s.Filed crates (options j) state j cid tx req graph).mpr
      ⟨fun cid => h.filed_step hs ha hf hi e, fun j _ => h.filed j⟩
    intro j cid hm
    have ⟨tx, req, graph, hfile⟩ := hfiled j cid hm
    exact ⟨tx, req, graph, hfile.mono rfl <| .refl _⟩

theorem Sound.posts {tx : Fin m} {p : Posted w} {awaits : Fin w → Option (Fin m)} {server : Server m}
    (ht : s.posted tx = none) (hp : ∀ i, p.sender = some i → p.request.Genuine crates (options i))
    (ha : ∀ i tx', awaits i = some tx' → s.awaits i = some tx' ∨
      tx' = tx ∧ p.sender = some i ∧ (s.workers i).request? crates (options i) = some p.request)
    (hserver : server.shared = s.server.shared) : Sound crates options state { s with
      awaits
      posted := Function.update s.posted tx (some p)
      server } := by
  have hold {tx' p'} (hp' : s.posted tx' = some p') : Function.update s.posted tx (some p) tx' = some p' := by
    have hne : tx' ≠ tx := by
      rintro rfl
      cases ht.symm.trans hp'
    exact (Function.update_of_ne hne ..).trans hp'
  constructor
  case workers => exact h.workers
  case posted =>
    refine (Function.forall_update_iff s.posted fun _ posted => ∀ i request, posted = some ⟨some i, request⟩ →
      request.Genuine crates (options i)).mpr ⟨?_, fun tx _ => h.posted tx⟩
    rintro i request ⟨⟩
    exact hp i rfl
  case awaits =>
    intro i tx' hi
    rcases ha i tx' hi with hi | ⟨rfl, hsender, hr⟩
    case inl =>
      have ⟨request, hp', hr⟩ := h.awaits i tx' hi
      exact ⟨request, hold hp', hr⟩
    case inr => exact ⟨p.request, (Function.update_self ..).trans <| by rw [← hsender], hr⟩
  case filed =>
    intro i cid hm
    have ⟨tx', req, graph, hfile⟩ := h.filed i cid hm
    exact ⟨tx', req, graph, hfile.mono (hold hfile.posted |>.trans hfile.posted.symm) <| hserver ▸ .refl _⟩

theorem Sound.step (hs : ∀ i, (options i).setup.Admissible) (hp : s.server.shared.Paged state requests)
    (ha : s.server.shared.Honest state requests) (hf : s.Foretold requests) (e : Effect crates options state s s') :
    s'.Sound crates options state := by
  cases e
  case tells i input worker hi e => exact h.tells (hs i) hp ha hf hi e
  case posts tx i request ht _ hr =>
    refine h.posts ht ?_ (fun j tx' hj => ?_) rfl
    · rintro j ⟨⟩
      exact (h.workers i).genuine hr
    · by_cases hji : j = i
      case pos =>
        subst hji
        rw [Function.update_self] at hj
        exact .inr ⟨(Option.some.inj hj).symm, rfl, hr⟩
      case neg =>
        rw [Function.update_of_ne hji] at hj
        exact .inl hj
  case other tx request ht => exact h.posts ht nofun (fun _ _ => .inl) rfl
  case serves turn next ht e =>
    have ⟨_, _, _, _, he⟩ := Pool.step_cases e
    refine ⟨h.workers, h.posted, h.awaits, fun j cid hm => ?_⟩
    have ⟨tx, req, graph, hfile⟩ := h.filed j cid hm
    exact ⟨tx, req, graph, hfile.mono rfl (ServerState.persists_perform he).tables⟩

end Sound

theorem foretold_requests (s : Network w m) : s.Foretold s.requests := by
  intro tx p hp
  rw [requests, hp]

theorem sound_init : (init options identities : Network w m).Sound crates options state where
  workers _ := Worker.sound_init _
  posted    := nofun
  awaits    := nofun
  filed     := nofun

section Run

variable (nauty : state.lib.LawfulNauty) (hex : state.hex.Lawful)
  (blake3 : Set.InjOn state.lib.blake3 (ServerState.canonicalGraphs state requests))
  (hs : ∀ i, (options i).setup.Admissible)
include nauty hex blake3 hs

theorem sound_of_run (r : Machine.Run (step crates options state) (fun _ _ => True) (init options identities) s)
    (hf : s.Foretold requests) : s.Sound crates options state ∧
      Machine.Run Server.step (fun _ _ => True) (Server.init state requests ⟨identities, [], [], [], []⟩ [])
        (s.foretell state requests) := by
  induction r
  case refl => exact ⟨sound_init, .refl⟩
  case step s input s' r _ e ih =>
    have e := step_effect e
    have hf' := e.foretold hf
    have ⟨h, hr⟩ := ih hf'
    have hp : (s.foretell state requests).shared.Paged state requests := ServerState.paged_of_run nauty hex blake3 hr
    have ha : (s.foretell state requests).shared.Honest state requests := ServerState.honest_of_run hr
    exact ⟨h.step hs hp ha hf' e, run_foretell hr e hf⟩

end Run

-- An entry of the board comes from a request that has been posted. If a worker has posted it, the graph is one that the
-- worker has been searching for.
structure Earned (options : Fin w → WorkerOptions) (state : AppState) (s : Network w m) (e : LeaderboardEntry) (tx : Fin m)
    (sender : Option (Fin w)) (req : SubmitRequest) (graph : AdjacencyMatrix) : Prop where
  posted     : s.posted tx = some ⟨sender, .submit req⟩
  accepted   : req.validate state = .ok graph
  order      : e.n = .ofNat req.n
  cid        : e.cid = (canonicalCid state.lib graph).toHex state.hex
  scoreBytes : e.scoreBytes = state.scoreBytes graph
  valid      : ∀ i, sender = some i →
    graph.IsRamsey (options i).setup.config.n (options i).setup.engine.maxK (options i).setup.targetEll

-- The workers start their searches from what the server answers, whoever else posts to it. Nevertheless, in every run
-- of all of them together, each worker vouches for its graphs, and each entry of a board has been earned.
theorem boards_earned (state : AppState) (nauty : state.lib.LawfulNauty) (hex : state.hex.Lawful) (crates : IdentityCrates)
    (options : Fin w → WorkerOptions) (hs : ∀ i, (options i).setup.Admissible) (identities : List Identity)
    (s : Network w m) (r : Machine.Run (step crates options state) (fun _ _ => True) (init options identities) s)
    (blake3 : Set.InjOn state.lib.blake3 (ServerState.canonicalGraphs state s.requests)) :
    (∀ i, (s.workers i).Sound (options i).setup) ∧
    ∀ e ∈ s.server.shared.database.committedRows, ∃ tx sender req graph, s.Earned options state e tx sender req graph := by
  have ⟨h, hr⟩ := sound_of_run nauty hex blake3 hs r s.foretold_requests
  refine ⟨h.workers, fun e he => ?_⟩
  have ⟨v, hv, hve⟩ := List.mem_map.mp he
  obtain ⟨req, scored, ⟨⟨tx, ht⟩, graph, hg, rfl⟩, hn, hc, hb⟩ := ((ServerState.recorded_run hr).versions v (List.mem_filter.mp hv).1).origin
  rw [hve] at hn hc hb
  rw [requests] at ht
  split at ht
  case h_2 => cases ht
  case h_1 p hp =>
    obtain ⟨sender, request⟩ := p
    subst ht
    refine ⟨tx, sender, req, graph, hp, hg, hn, hc, hb, ?_⟩
    rintro i rfl
    obtain ⟨d, hd, hreq⟩ := h.posted tx i _ hp
    refine hd.valid.congr <| SubmitRequest.sameEdges_of_validate hg ?_ (hd.valid.order ▸ (hs i).le)
    rw [ServerClient.submitRequest] at hreq
    split at hreq <;> cases hreq
    rfl

-- In every run of the workers, the server and its other clients, whatever calls fail, each discovery that a worker has
-- counted as submitted is stored on the server, with its CID, its score, the signed submission and the receipt.
theorem submissions_filed (state : AppState) (nauty : state.lib.LawfulNauty) (hex : state.hex.Lawful)
    (crates : IdentityCrates) (options : Fin w → WorkerOptions) (hs : ∀ i, (options i).setup.Admissible)
    (lib : ∀ i, (options i).setup.lib = state.lib) (identities : List Identity) (s : Network w m)
    (r : Machine.Run (step crates options state) (fun _ _ => True) (init options identities) s)
    (blake3 : Set.InjOn state.lib.blake3 (ServerState.canonicalGraphs state s.requests)) :
    ∀ i cid, .submitted cid true ∈ (s.workers i).engine.log → ∃ tx req graph, s.Filed crates (options i) state i cid tx req graph ∧
      cid.toHex state.hex = SubmitRequest.cidHex state (scoreGraph state.lib graph state.maxK) := by
  intro i cid hm
  have ⟨h, _⟩ := sound_of_run nauty hex blake3 hs r s.foretold_requests
  have ⟨tx, req, graph, hfile⟩ := h.filed i cid hm
  refine ⟨tx, req, graph, hfile, ?_⟩
  rw [hfile.isCid, lib i]
  rfl

end Network

def Request.isSubmit : Request → Bool
  | .submit _ => true
  | _         => false

-- A single submission cannot collide with another one.
theorem ServerState.injOn_of_single {state : AppState} {requests : Fin m → Request} {tx : Fin m}
    (h : ∀ tx', (requests tx').isSubmit → tx' = tx) : Set.InjOn state.lib.blake3 (canonicalGraphs state requests) := by
  rintro a ⟨req, scored, ⟨⟨i, hi⟩, matrix, hv, hs⟩, ha⟩ b ⟨req', scored', ⟨⟨i', hi'⟩, matrix', hv', hs'⟩, hb⟩ _
  have he := h i <| by rw [hi]; rfl
  have he' := h i' <| by rw [hi']; rfl
  subst he he'
  cases hi.symm.trans hi'
  cases hv.symm.trans hv'
  rw [ha, hb, hs, hs']

namespace ReferenceNetwork

open ReferenceIdentity DashboardClient

-- A worker that searches for `R(3, 3)` on three vertices and submits what it finds.
def options (_ : Fin 1) : WorkerOptions where
  setup                 := { Worker.path3Worker with
    config    := { Worker.path3Worker.config with offline := false }
    hasClient := true }
  client                := ⟨some identity⟩
  metadata              := none
  leaderboardSampleSize := 10

def turns (tx : Fin 4) (count : Nat) : List (NetworkInput 1 4) :=
  .replicate count <| .turn <| ReferenceServer.turn tx .none

-- A round of the worker: it asks for the threshold, the CIDs and the graphs of the board, and submits a discovery.
def inputs : List (NetworkInput 1 4) :=
  [.worker 0 <| .engine <| .shutdown false, .post 0 0] ++ turns 0 5 ++ [.answer 0 0, .post 0 1] ++ turns 1 4 ++
    [.answer 0 0, .post 0 2] ++ turns 2 4 ++ [.answer 0 0, .worker 0 <| .search ⟨id, id, ∅⟩, .post 0 3] ++ turns 3 19 ++
    [.answer 0 0]

def start : Network 1 4 :=
  .init options [Reference.row]

theorem admissible (i : Fin 1) : (options i).setup.Admissible :=
  { Worker.path3Worker_admissible with }

-- The worker has counted a discovery as submitted, and the board has an entry.
theorem exists_run : ∃ s, Machine.Run (Network.step crates options Reference.state) (fun _ _ => True) start s ∧
    (∀ tx, (s.requests tx).isSubmit → tx = 3) ∧ s.server.shared.database.committedRows.length = 1 ∧
    ∃ cid, .submitted cid true ∈ (s.workers 0).engine.log := by
  have ⟨s, e, hs, hl, hc⟩ : ∃ s ∈ Machine.execute (Network.step crates options Reference.state) start inputs,
      (∀ tx, (s.requests tx).isSubmit → tx = 3) ∧ s.server.shared.database.committedRows.length = 1 ∧
        (s.workers 0).engine.log.any (·.submittedCid.isSome) := by decide +kernel
  refine ⟨s, Machine.run_of_execute e, hs, hl, ?_⟩
  obtain ⟨event, hm, he⟩ := List.any_eq_true.mp hc
  obtain ⟨cid, he⟩ := Option.isSome_iff_exists.mp he
  unfold EngineEvent.submittedCid at he
  split at he
  case h_1 => exact ⟨_, hm⟩
  case h_2 => cases he

end ReferenceNetwork

namespace Network

open ReferenceIdentity ReferenceNetwork DashboardClient

theorem path3_earned : ∃ s, Machine.Run (step crates options Reference.state) (fun _ _ => True) start s ∧
    s.server.shared.database.committedRows.length = 1 ∧ (∀ i, (s.workers i).Sound (options i).setup) ∧
    ∀ e ∈ s.server.shared.database.committedRows, ∃ tx sender req graph,
      s.Earned options Reference.state e tx sender req graph := by
  have ⟨s, r, hs, hl, _⟩ := exists_run
  exact ⟨s, r, hl, boards_earned Reference.state (ReferenceNauty.lawfulNauty _) ReferenceHex.lawful crates options admissible
    [Reference.row] s r (ServerState.injOn_of_single hs)⟩

theorem path3_filed : ∃ s, Machine.Run (step crates options Reference.state) (fun _ _ => True) start s ∧
    ∃ cid, .submitted cid true ∈ (s.workers 0).engine.log ∧
      ∃ tx req graph, s.Filed crates (options 0) Reference.state 0 cid tx req graph ∧
        cid.toHex Reference.state.hex = SubmitRequest.cidHex Reference.state (scoreGraph Reference.state.lib graph 5) := by
  have ⟨s, r, hs, _, cid, hm⟩ := exists_run
  exact ⟨s, r, cid, hm, submissions_filed Reference.state (ReferenceNauty.lawfulNauty _) ReferenceHex.lawful crates options
    admissible (fun _ => rfl) [Reference.row] s r (ServerState.injOn_of_single hs) 0 cid hm⟩

end Network
