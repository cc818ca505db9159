import Extremal.Server.Theorems.AllOrNothing
import Extremal.Server.Theorems.Graphs
import Extremal.Worker.Client
import Extremal.Worker.Theorems.Dashboard
import Extremal.Worker.Theorems.Rounds

-- All calls for a request succeed.
structure Fate.Smooth (fate : Fate) : Prop where
  fault : ∀ query, fate.fault query = .none
  task  : fate.task = .ok ()

namespace Store

variable {state : AppState} {fate : Fate} {req : SubmitRequest} {scored : ScoredGraph} {s s' : Store}

-- The offer of a request to its board.
def offer (state : AppState) (fate : Fate) (req : SubmitRequest) (scored : ScoredGraph) : Offer where
  n          := .ofNat req.n
  cid        := SubmitRequest.cidHex state scored
  keyId      := req.keyId
  scoreBytes := ⟨scored.score.toScoreBytes state.maxK⟩
  capacity   := state.leaderboardCapacity
  now        := fate.now
  scan       := fate.scan

-- What the store has of a request that has been recorded.
structure Holds (state : AppState) (fate : Fate) (req : SubmitRequest) (scored : ScoredGraph) (s s' : Store) : Prop where
  leaderboard : s'.leaderboard = ((offer state fate req scored).tryAdmit s.leaderboard).2
  submission  : req.submissionRow state scored ∈ s'.tables.submissions
  receipt     : req.receiptRow state scored ∈ s'.tables.receipts
  graph       : s'.tables.hasGraph (SubmitRequest.cidHex state scored)
  score       : s'.tables.hasScore (SubmitRequest.cidHex state scored)

theorem run_smooth (hf : fate.Smooth) {query : Query} {f : query.Answer → Handler α} {a : query.Answer}
    (ha : s.answer fate query = (.ok a, s')) : (Handler.store query >>= f).run (handle fate) s = (f a).run (handle fate) s' := by
  rw [run_store ha, hf.fault]
  rfl

theorem run_recordSubmission (hf : fate.Smooth) : ∃ response s',
    (Handler.recordSubmission state req scored).run (handle fate) s = (.ok response, s') ∧
      response.cid = SubmitRequest.cidHex state scored ∧ response.verdict = "accepted" ∧
      response.rank = ((offer state fate req scored).tryAdmit s.leaderboard).1 ∧ Holds state fate req scored s s' := by
  let tables := ((s.tables.storeGraph <| req.graphRow state scored).storeScore <| req.scoreRow state scored)
    |>.storeSubmission (req.submissionRow state scored) |>.storeReceipt (req.receiptRow state scored)
  let admitted := (offer state fate req scored).tryAdmit s.leaderboard
  have hs : Holds state fate req scored s ⟨tables, admitted.2⟩ := by
    have hg : (s.tables.storeGraph <| req.graphRow state scored).hasGraph (SubmitRequest.cidHex state scored) :=
      Tables.hasGraph_storeGraph
    exact ⟨rfl, List.mem_append_right _ <| .head _, List.mem_append_right _ <| .head _,
      Tables.grows_storeScore.graphs _ hg, Tables.hasScore_storeScore⟩
  let receipt : ReceiptResponse :=
    { serverKeyId := state.serverKeyId
      signature   := (req.receiptRow state scored).signature
      score       := SubmitRequest.scoreJson scored }
  let response : SubmitResponse :=
    { cid      := SubmitRequest.cidHex state scored
      verdict  := "accepted"
      admitted := admitted.1.isSome
      rank     := admitted.1
      receipt  := receipt }
  refine ⟨response, ⟨tables, admitted.2⟩, ?_, rfl, rfl, rfl, hs⟩
  rw [Handler.recordSubmission, run_smooth hf rfl, run_smooth hf rfl, run_smooth hf rfl, run_smooth hf rfl,
    run_smooth hf rfl, run_invalidate]
  rfl

-- A request that passes all checks is recorded.
theorem run_submitGraph (hf : fate.Smooth) {matrix : AdjacencyMatrix} (hv : req.validate state = .ok matrix)
    (ha : req.authenticate state (s.tables.getIdentity req.keyId) = .ok ()) :
    let scored := scoreGraph state.lib matrix state.maxK
    ∃ response s', (Handler.submitGraph state req).run (handle fate) s = (.ok response, s') ∧
      response.cid = SubmitRequest.cidHex state scored ∧ response.verdict = "accepted" ∧
      response.rank = ((offer state fate req scored).tryAdmit s.leaderboard).1 ∧ Holds state fate req scored s s' := by
  intro scored
  have ⟨result, hr, hs⟩ := @run_checkSubmission state fate req s
  have hs : result = .ok scored := by
    rw [accepted, hv, hf.fault, ha, hf.task] at hs
    cases result <;> cases hs
    rfl
  rw [Handler.submitGraph, Program.run_bind, hr, hs]
  exact run_recordSubmission hf

end Store

section Submit

variable {crates : IdentityCrates} {identity : SigningIdentity} {state : AppState} {n : Nat}

-- The server checks signatures as the client makes them.
def AppState.Verifies (state : AppState) (crates : IdentityCrates) : Prop :=
  ∀ publicKey payload signature, state.verifySignature publicKey payload signature = .ok true ↔
    SigningIdentity.verifySignature crates publicKey payload signature = .ok true

theorem authenticate_submitRequest (hex : crates.hex.Lawful) (lawful : crates.ed25519.Lawful)
    (hv : state.Verifies crates) {row : Store.Identity} (hp : row.publicKey = identity.publicKeyHex crates)
    {graph6 : List UInt8} {metadata : Option Json} {req : SubmitRequest}
    (hr : ServerClient.submitRequest crates ⟨some identity⟩ n graph6 metadata = .ok req) :
    req.authenticate state (some row) = .ok () := by
  cases hr
  rw [SubmitRequest.authenticate_iff, hv, hp, SigningIdentity.verifySignature_sign hex lawful, lawful.verify_sign]

-- The checks of the server accept the encoding of a graph with the right number of vertices.
theorem validate_encode {graph : AdjacencyMatrix} (hn : graph.n = n) (hpos : 1 ≤ n) (hle : n ≤ 62) (hN : n ≤ state.maxN)
    (req : SubmitRequest) (hreq : req.n = n) (hg : req.graph6 = Graph6.encode graph)
    (hm : ∀ metadata ∈ req.metadata, (state.render metadata).utf8ByteSize ≤ 4096) :
    ∃ matrix, req.validate state = .ok matrix ∧ matrix.SameEdges graph := by
  have ⟨matrix, hd, _, hs⟩ := Graph6.decode_encode (m := graph) (hn ▸ hle)
  have hmeta : (req.metadata.any fun metadata => (state.render metadata).utf8ByteSize > 4096) = false := by
    cases h : req.metadata
    case none   => rfl
    case some m => simpa using hm m h
  refine ⟨matrix, ?_, hs⟩
  rw [SubmitRequest.validate, decodeRequest, hmeta, hg, hd, hreq, if_neg (by omega), if_neg (by simp), if_neg (by omega)]
  change (if matrix.n ≠ n then _ else Except.ok matrix) = _
  rw [if_neg <| not_not.mpr <| hs.n.trans hn]

end Submit

-- A worker may start its searches from the answers of a server.
theorem IsPage.fitGraphs {state : AppState} {board : Int32} {limit offset : Int64} {items : List GraphItem}
    (h : IsPage state board limit offset items) {n : Nat} (hn : board.toInt = n) : FitGraphs n (items.map (·.graph6)) := by
  intro g6 hm graph hd
  obtain ⟨item, hi, rfl⟩ := List.mem_map.mp hm
  have ⟨graph', hs⟩ := h.shows item hi
  cases hs.decodes.symm.trans hd
  exact Int.ofNat_inj.mp <| hs.order.symm.trans hn

namespace Worker

-- The offer of a discovery with the score that the worker has computed.
def offer (setup : WorkerSetup) (state : AppState) (fate : Fate) (keyId : String) (d : ScoredDiscovery) : Offer where
  n          := .ofNat setup.config.n
  cid        := d.cid.toHex state.hex
  keyId      := keyId
  scoreBytes := ⟨d.score.toScoreBytes setup.engine.maxK⟩
  capacity   := state.leaderboardCapacity
  now        := fate.now
  scan       := fate.scan

-- What the submission of a discovery comes to: it is recorded under the CID that the worker has computed, and it is
-- offered to the board with the worker's score, if the server has the same bound on the clique sizes.
structure Accepted (setup : WorkerSetup) (state : AppState) (fate : Fate) (keyId : String) (d : ScoredDiscovery)
    (store : Store) (response : SubmitResponse) (store' : Store) : Prop where
  cid        : response.cid = d.cid.toHex state.hex
  verdict    : response.verdict = "accepted"
  graph      : store'.tables.hasGraph response.cid
  score      : store'.tables.hasScore response.cid
  submission : ∃ x ∈ store'.tables.submissions, x.cid = response.cid ∧ x.keyId = keyId
  board      : state.maxK = setup.engine.maxK →
    (response.rank, store'.leaderboard) = (offer setup state fate keyId d).tryAdmit store.leaderboard

-- In every run of a worker, the request for each discovery that it keeps passes the checks of a server that knows its
-- key, and is recorded, if no call fails meanwhile.
theorem submissions_accepted {setup : WorkerSetup} (hs : setup.Admissible)
    (r : Machine.Run (step setup) (fun _ input => input.Fits setup.config.n) (init setup) w)
    {crates : IdentityCrates} (hex : crates.hex.Lawful) (lawful : crates.ed25519.Lawful) (identity : SigningIdentity)
    {metadata : Option Json} {state : AppState} (lib : state.lib = setup.lib) (hN : setup.config.n ≤ state.maxN)
    (hv : state.Verifies crates) (hm : ∀ m ∈ metadata, (state.render m).utf8ByteSize ≤ 4096)
    {store : Store} {row : Store.Identity} (hrow : store.tables.getIdentity identity.keyId = some row)
    (hp : row.publicKey = identity.publicKeyHex crates) {fate : Fate} (hf : fate.Smooth) :
    ∀ d ∈ w.engine.held, ∃ req,
      ServerClient.submitDiscovery crates ⟨some identity⟩ metadata w.engine d = .ok req ∧
      ∃ response store', (Handler.submitGraph state req).run (Store.handle fate) store = (.ok response, store') ∧
        Accepted setup state fate identity.keyId d store response store' := by
  intro d hd
  have h : w.Sound setup := r.invariant (Sound setup) (fun h hi e => h.step hs hi e) (sound_init setup)
  have hsound := h.engine.held d hd
  have hn : w.engine.config.n = setup.config.n := h.target.n
  let req : SubmitRequest :=
    { n         := setup.config.n
      graph6    := Graph6.encode d.graph
      keyId     := identity.keyId
      signature := identity.sign crates <| canonicalPayload setup.config.n <| Graph6.encode d.graph
      metadata  := metadata }
  have hreq : ServerClient.submitDiscovery crates ⟨some identity⟩ metadata w.engine d = .ok req := by
    rw [ServerClient.submitDiscovery, hn]
    rfl
  have ⟨matrix, hvalid, he⟩ := validate_encode hsound.valid.order (Nat.le_of_succ_le hs.two_le) hs.le hN req rfl
    rfl hm
  have ha : req.authenticate state (store.tables.getIdentity req.keyId) = .ok () := by
    rw [hrow]
    exact authenticate_submitRequest hex lawful hv hp hreq
  have ⟨response, store', hrun, hc, hverdict, hrank, hh⟩ := Store.run_submitGraph hf hvalid ha
  rw [scoreGraph_congr he state.maxK] at hc hrank hh
  have hcid : SubmitRequest.cidHex state (scoreGraph state.lib d.graph state.maxK) = d.cid.toHex state.hex := by
    rw [hsound.cid, lib]
    rfl
  refine ⟨req, hreq, response, store', hrun, hc.trans hcid, hverdict, hc ▸ hh.graph, hc ▸ hh.score,
    ⟨_, hh.submission, hc.symm, rfl⟩, fun hk => ?_⟩
  have ho : Store.offer state fate req (scoreGraph state.lib d.graph state.maxK) = offer setup state fate identity.keyId d := by
    have hscore : (scoreGraph state.lib d.graph state.maxK).score = d.score := by
      rw [hsound.score, lib, hk, ← hsound.valid.order]
      rfl
    rw [Store.offer, hcid, hscore, hk]
    rfl
  rw [← ho]
  exact Prod.ext hrank hh.leaderboard

section Path3

open DashboardClient ReferenceIdentity

theorem reference_verifies : Reference.state.Verifies crates := by
  intro publicKey payload signature
  show (SigningIdentity.verifySignature crates publicKey payload signature).mapError _ = _ ↔ _
  cases SigningIdentity.verifySignature crates publicKey payload signature <;> simp [Except.mapError]

-- A store without graphs that knows the key of the worker.
def keyStore : Store where
  tables      := { identities := [Reference.row], graphs := [], scores := [], submissions := [], receipts := [] }
  leaderboard := .empty

def smoothFate : Fate where
  fault _ := .none
  task    := .ok ()
  now     := 0
  scan    := .heap

theorem path3Worker_accepted :
    ∃ w, Machine.Run (step path3Worker) (fun _ input => input.Fits 3) (init path3Worker) w ∧ w.engine.held.length = 2 ∧
      ∀ d ∈ w.engine.held, ∃ req, ServerClient.submitDiscovery crates ⟨some identity⟩ none w.engine d = .ok req ∧
        ∃ response store', (Handler.submitGraph Reference.state req).run (Store.handle smoothFate) keyStore =
          (.ok response, store') ∧ Accepted path3Worker Reference.state smoothFate identity.keyId d keyStore response store' := by
  let inputs : List WorkerInput := [.engine (.shutdown false), .search ⟨id, id, ∅⟩]
  have ⟨w, e, hl⟩ : ∃ w ∈ Machine.execute (step path3Worker) (init path3Worker) inputs, w.engine.held.length = 2 := by
    decide +kernel
  have hf : ∀ input ∈ inputs, input.Fits 3 := by simp [inputs, WorkerInput.Fits]
  have r : Machine.Run (step path3Worker) (fun _ input => input.Fits 3) (init path3Worker) w := .of_forall hf e
  have hrow : keyStore.tables.getIdentity identity.keyId = some Reference.row :=
    List.find?_cons_of_pos <| by decide
  exact ⟨w, r, hl, submissions_accepted path3Worker_admissible r ReferenceHex.lawful lawful identity rfl (by decide)
    reference_verifies (by simp) hrow rfl ⟨fun _ => rfl, rfl⟩⟩

end Path3
end Worker
