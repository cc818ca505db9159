import Extremal.Graph.Theorems.RoundTrip
import Extremal.Cli.Score
import Extremal.Server.Sequential
import Extremal.Server.Theorems.Submit
import Extremal.Server.Verify

open AdjacencyMatrix

-- The identity of a graph as the two ways to score it report it.
structure ScoreReport.Agrees (report : ScoreReport) (response : VerifyResponse) : Prop where
  cid        : report.cid = response.cid
  histogram  : report.histogram.toJson = response.histogram
  goodmanGap : report.goodmanGap = response.goodmanGap

-- The graph is labelled as `canonical_form` labels some graph.
def AdjacencyMatrix.CanonicallyLabelled (lib : Crates) (m : AdjacencyMatrix) : Prop :=
  ∃ graph : AdjacencyMatrix, (canonicalForm lib graph).1.SameEdges m

section CanonicalForm

variable {lib : Crates} {m : AdjacencyMatrix}

theorem n_canonicalForm (m : AdjacencyMatrix) : (canonicalForm lib m).1.n = m.n := by
  by_cases h : m.n = 0
  case pos => rw [canonicalForm_zero h, h]; rfl
  case neg =>
    rw [canonicalForm_pos h, permuteVertices]
    refine Loop.foldl_induction (fun result : AdjacencyMatrix => result.n = m.n) (fun result p _ h => ?_) rfl
    split
    case isTrue  => rwa [n_setEdge]
    case isFalse => exact h

-- Relabelling a canonical form changes none of its edges.
theorem canonicallyLabelled_iff (nauty : lib.LawfulNauty) (hn : m.n ≤ 62) :
    m.CanonicallyLabelled lib ↔ Graph6.encode (canonicalForm lib m).1 = Graph6.encode m := by
  constructor
  case mpr =>
    intro h
    exact ⟨m, Graph6.encode_inj (by rwa [n_canonicalForm]) hn h⟩
  case mp =>
    rintro ⟨graph, hs⟩
    have hg : graph.n ≤ 62 := (n_canonicalForm graph).symm.trans_le (hs.n.trans_le hn)
    have ⟨e⟩ := nonempty_canonicalIso nauty hg
    rw [← canonicalForm_congr hs, ← canonicalForm_eq nauty hg e, Graph6.encode_congr hs]

end CanonicalForm

theorem scoreCommand_of_report {lib : Crates} {hex : Hex} {n maxK : Nat} {graph6 : List UInt8} {report : ScoreReport}
    (h : scoreReport lib hex n graph6 maxK = .ok report) : scoreCommand lib hex n graph6 maxK = .ok report.lines := by
  rw [scoreCommand, h]
  rfl

section Agreement

variable {state : AppState} {req : VerifyRequest} {m : AdjacencyMatrix}
  (decoded : Graph6.decode req.graph6 = .ok m) (n : m.n = req.n)
include decoded n

theorem scoreReport_decoded (lib : Crates) (hex : Hex) (maxK : Nat) :
    scoreReport lib hex req.n req.graph6 maxK = .ok {
      n          := req.n
      cid        := computeCid lib m |>.toHex hex
      histogram  := (scoreGraph lib m maxK).score.histogram
      goodmanGap := (scoreGraph lib m maxK).score.goodmanGap
      edges      := m.numEdges } := by
  rw [scoreReport, decoded, scoreGraph, ← n]
  exact if_neg (by simp)

theorem decodeRequest_decoded (hpos : 1 ≤ req.n) (hN : req.n ≤ state.maxN) :
    decodeRequest state.maxN req.n req.graph6 = .ok m := by
  rw [decodeRequest, if_neg (by omega), decoded]
  exact if_neg (by simp [n])

theorem verifyGraph_decoded (hpos : 1 ≤ req.n) (hN : req.n ≤ state.maxN)
    {handle : (c : Call) → σ → c.Answer × σ} {s : σ} (task : (handle .spawnBlocking s).1 = .ok ()) :
    ((Handler.verifyGraph state req).run handle s).1 = .ok {
      cid             := (scoreGraph state.lib m state.maxK).score.cid.toHex state.hex
      n               := req.n
      histogram       := (scoreGraph state.lib m state.maxK).score.histogram.toJson
      goodmanGap      := (scoreGraph state.lib m state.maxK).score.goodmanGap
      autOrder        := (scoreGraph state.lib m state.maxK).score.autOrder
      canonicalGraph6 := (scoreGraph state.lib m state.maxK).canonicalGraph6 } := by
  rw [Handler.verifyGraph, decodeRequest_decoded decoded n hpos hN, Program.run_bind, Program.run_ofExcept]
  simp only [Program.run_perform_bind, task]
  rfl

end Agreement

-- The command and the endpoint agree on the histogram and the Goodman gap of a graph, but on its CID only
-- if its labels are canonical.
theorem scoreCommand_agrees_iff {state : AppState} (nauty : state.lib.LawfulNauty) (hex : state.hex.Lawful)
    {req : VerifyRequest} (hpos : 1 ≤ req.n) (hN : req.n ≤ state.maxN) {m : AdjacencyMatrix}
    (decoded : Graph6.decode req.graph6 = .ok m) (n : m.n = req.n)
    (blake3 : state.lib.blake3 (Graph6.encode m) = state.lib.blake3 (Graph6.encode (canonicalForm state.lib m).1) →
      Graph6.encode m = Graph6.encode (canonicalForm state.lib m).1)
    {handle : (c : Call) → σ → c.Answer × σ} {s : σ} (task : (handle .spawnBlocking s).1 = .ok ()) :
    ∃ report response,
      scoreReport state.lib state.hex req.n req.graph6 state.maxK = .ok report ∧
      scoreCommand state.lib state.hex req.n req.graph6 state.maxK = .ok report.lines ∧
      ((Handler.verifyGraph state req).run handle s).1 = .ok response ∧
      report.histogram.toJson = response.histogram ∧ report.goodmanGap = response.goodmanGap ∧
      (report.Agrees response ↔ m.CanonicallyLabelled state.lib) := by
  have hr := scoreReport_decoded decoded n state.lib state.hex state.maxK
  refine ⟨_, _, hr, scoreCommand_of_report hr, verifyGraph_decoded decoded n hpos hN task, rfl, rfl, ?_⟩
  rw [canonicallyLabelled_iff nauty (Graph6.n_le_of_decode decoded)]
  constructor
  case mp  => exact fun agrees => (blake3 <| GraphCid.toHex_inj hex agrees.cid).symm
  case mpr => exact fun h => ⟨congrArg (GraphCid.toHex state.hex <| state.lib.blake3 ·) h.symm, rfl, rfl⟩

-- The path with three vertices has the graph6 string `Bg`, its canonical form has `BW`.
namespace ReferenceCli

open ReferenceNauty

def digest (bytes : List UInt8) : List UInt8 :=
  if bytes = [66, 103] then
    [34, 213, 57, 35, 8, 252, 13, 219, 215, 90, 101, 22, 230, 226, 1, 53,
     1, 251, 32, 238, 162, 38, 184, 39, 40, 222, 38, 235, 27, 83, 80, 241]
  else (crates.blake3 bytes).bytes

def state : AppState where
  __  := ReferenceServer.state 5
  lib := {
    densenauty
    blake3 bytes := ⟨digest bytes, by rw [digest]; split <;> [rfl; exact (crates.blake3 bytes).length_bytes]⟩ }

def store : Store where
  tables      := { identities := [], graphs := [], scores := [], submissions := [], receipts := [] }
  leaderboard := .empty

def fate : Fate where
  fault _ := .none
  task    := .ok ()
  now     := 0
  scan    := .heap

def request (graph6 : List UInt8) : VerifyRequest :=
  { n := 3, graph6 }

theorem lawfulNauty : state.lib.LawfulNauty :=
  ReferenceNauty.lawfulNauty _

end ReferenceCli

open ReferenceCli ReferenceNauty in
theorem scoreCommand_agrees_canonical_path3 :
    ∃ (report : ScoreReport) (response : VerifyResponse),
      scoreCommand state.lib state.hex 3 [66, 87] state.maxK = .ok report.lines ∧
      ((Handler.verifyGraph state <| request [66, 87]).run (Store.handle fate) store).1 = .ok response ∧
      report.Agrees response := by
  have decoded : Graph6.decode (request [66, 87]).graph6 = .ok (canonicalForm state.lib path3).1 := by decide +kernel
  have hpos : 1 ≤ (request [66, 87]).n := by decide
  have task : (Store.handle fate .spawnBlocking store).1 = .ok () := rfl
  have ⟨report, response, _, hr, hv, _, _, ha⟩ :=
    scoreCommand_agrees_iff ReferenceCli.lawfulNauty ReferenceHex.lawful hpos (by decide) decoded (by decide +kernel)
      (by decide +kernel) task
  exact ⟨report, response, hr, hv, ha.mpr ⟨path3, rfl, fun _ _ _ _ => rfl⟩⟩

-- Labelled as a path the graph gets another CID from the command than from the endpoint.
open ReferenceCli ReferenceNauty in
theorem scoreCommand_disagrees_path3 :
    ∃ report response,
      scoreReport state.lib state.hex 3 [66, 103] state.maxK = .ok report ∧
      scoreCommand state.lib state.hex 3 [66, 103] state.maxK = .ok report.lines ∧
      ((Handler.verifyGraph state <| request [66, 103]).run (Store.handle fate) store).1 = .ok response ∧
      report.cid ≠ response.cid := by
  have decoded : Graph6.decode (request [66, 103]).graph6 = .ok path3 := by decide +kernel
  have hr := scoreReport_decoded decoded rfl state.lib state.hex state.maxK
  refine ⟨_, _, hr, scoreCommand_of_report hr, verifyGraph_decoded decoded rfl (by decide) (by decide) rfl, fun h => ?_⟩
  have := GraphCid.toHex_inj ReferenceHex.lawful h
  revert this
  decide +kernel
