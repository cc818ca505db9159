import Extremal.Lib.Lexicographic
import Extremal.Scoring.Automorphism
import Extremal.Scoring.Score
import Extremal.Server.State
import Extremal.Types.GraphCid

open Lexicographic

structure ScoredGraph where
  score           : GraphScore
  canonicalGraph6 : List UInt8
deriving DecidableEq

def scoreGraph (lib : Crates) (matrix : AdjacencyMatrix) (maxK : Nat) : ScoredGraph :=
  let histogram := CliqueHistogram.compute matrix maxK
  let (redTri, blueTri) := histogram.tier 3 |>.map (fun t => (t.red, t.blue)) |>.getD (0, 0)
  let gap := goodmanGap matrix.n redTri blueTri
  let (canonical, autOrder) := canonicalForm lib matrix
  { score           := { histogram, goodmanGap := gap, autOrder, cid := computeCid lib canonical }
    canonicalGraph6 := Graph6.encode canonical }

-- The graph of a request to submit or verify it.
def decodeRequest (maxN n : Nat) (graph6 : List UInt8) : Except ApiError AdjacencyMatrix :=
  if n = 0 ∨ maxN < n then .error <| .badRequest s!"n must be 1..={maxN}"
  else
    match Graph6.decode graph6 with
    | .error e   => .error <| .badRequest s!"invalid graph6: {e}"
    | .ok matrix =>
      if matrix.n ≠ n then
        .error <| .badRequest s!"graph6 decodes to n={matrix.n}, expected n={n}"
      else .ok matrix

-- The CID and the score bytes that `submit_graph` stores for a request with a valid signature.
def submitScore (lib : Crates) (hex : Hex) (maxN maxK n : Nat) (graph6 : List UInt8) :
    Except ApiError (String × Word UInt8) := do
  let matrix ← decodeRequest maxN n graph6
  let scored := scoreGraph lib matrix maxK
  return (hex.encode scored.score.cid.bytes, ⟨scored.score.toScoreBytes maxK⟩)

structure SubmitRequest where
  n         : Nat
  graph6    : List UInt8
  keyId     : String
  signature : String
  metadata  : Option Json

-- `n` in little endian and the text of the graph.
def canonicalPayload (n : Nat) (graph6 : List UInt8) : List UInt8 :=
  (List.range 4).map (fun i => .ofNat <| n >>> (8 * i)) ++ graph6

namespace CliqueHistogram

def toJson (histogram : CliqueHistogram) : Json :=
  let tiers := histogram.tiers.map fun tier =>
    .object [("k", .posInt <| .ofNat tier.k), ("red", .posInt tier.red), ("blue", .posInt tier.blue)]
  .object [("tiers", .array tiers), ("n", .posInt <| .ofNat histogram.n)]

end CliqueHistogram

namespace SubmitRequest

variable (state : AppState) (req : SubmitRequest) (scored : ScoredGraph)

-- `decodeRequest` repeats the check of `n`, which comes before the one of the metadata.
def validate : Except ApiError AdjacencyMatrix :=
  if req.n = 0 ∨ state.maxN < req.n then .error <| .badRequest s!"n must be 1..={state.maxN}"
  else if req.metadata.any fun metadata => (state.render metadata).utf8ByteSize > 4096 then
    .error <| .badRequest "metadata exceeds 4KB limit"
  else decodeRequest state.maxN req.n req.graph6

def authenticate (identity : Option Store.Identity) : Except ApiError Unit :=
  match identity with
  | none          => .error <| .unregisteredIdentity req.keyId
  | some identity =>
    match state.verifySignature identity.publicKey (canonicalPayload req.n req.graph6) req.signature with
    | .error e  => .error <| .badRequest s!"signature error: {e}"
    | .ok false => .error .invalidSignature
    | .ok true  => .ok ()

-- The rows that the request writes.

def cidHex : String :=
  scored.score.cid.toHex state.hex

def graphRow : Store.Graph where
  cid    := cidHex state scored
  n      := .ofNat req.n
  graph6 := scored.canonicalGraph6

def scoreRow : Store.Score where
  cid        := cidHex state scored
  n          := .ofNat req.n
  histogram  := scored.score.histogram.toJson
  goodmanGap := scored.score.goodmanGap.toFloat
  autOrder   := scored.score.autOrder
  scoreBytes := ⟨scored.score.toScoreBytes state.maxK⟩

def submissionRow : Store.Submission where
  cid       := cidHex state scored
  keyId     := req.keyId
  signature := req.signature
  metadata  := req.metadata

def verdict : String :=
  "accepted"

def scoreJson : Json :=
  .object [("histogram", scored.score.histogram.toJson), ("goodman_gap", .posInt scored.score.goodmanGap),
    ("aut_order", .float scored.score.autOrder)]

def receiptRow : Store.Receipt where
  cid         := cidHex state scored
  serverKeyId := state.serverKeyId
  verdict     := verdict
  scoreJson   := scoreJson scored
  signature   := state.sign s!"{cidHex state scored}:{verdict}:{req.n}".toUTF8.toList

end SubmitRequest

namespace Handler

variable (state : AppState) (req : SubmitRequest)

def checkSubmission : Handler ScoredGraph := do
  let matrix ← .ofExcept <| req.validate state
  let identity ← store <| .getIdentity req.keyId
  .ofExcept <| req.authenticate state identity
  let task ← .perform Call.spawnBlocking
  match task with
  | .error e => .throw <| .internal s!"scoring task failed: {e}"
  | .ok ()   => return scoreGraph state.lib matrix state.maxK

def recordSubmission (scored : ScoredGraph) : Handler SubmitResponse := do
  let cidHex := SubmitRequest.cidHex state scored
  let graphRow := req.graphRow state scored
  let scoreRow := req.scoreRow state scored
  let receiptRow := req.receiptRow state scored
  store <| .storeGraph graphRow
  store <| .storeScore scoreRow
  let _ ← store <| .storeSubmission <| req.submissionRow state scored
  let rank ← store <| .tryAdmit (.ofNat req.n) cidHex req.keyId scoreRow.scoreBytes state.leaderboardCapacity
  let _ ← store <| .storeReceipt receiptRow
  if rank.isSome then invalidate <| .ofNat req.n
  return {
    cid      := cidHex
    verdict  := receiptRow.verdict
    admitted := rank.isSome
    rank     := rank
    receipt  := {
      serverKeyId := receiptRow.serverKeyId
      signature   := receiptRow.signature
      score       := SubmitRequest.scoreJson scored } }

def submitGraph : Handler SubmitResponse := do
  let scored ← checkSubmission state req
  recordSubmission state req scored

end Handler
