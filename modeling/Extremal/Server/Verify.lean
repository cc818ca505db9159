import Extremal.Server.Submit

structure VerifyRequest where
  n      : Nat
  graph6 : List UInt8

-- The response to `POST /api/verify`.
structure VerifyResponse where
  cid             : String
  n               : Nat
  histogram       : Json
  goodmanGap      : UInt64
  autOrder        : Float
  canonicalGraph6 : List UInt8

-- Scores a graph without a signature, and stores nothing.
def Handler.verifyGraph (state : AppState) (req : VerifyRequest) : Handler VerifyResponse := do
  let matrix ← .ofExcept <| decodeRequest state.maxN req.n req.graph6
  let task ← .perform Call.spawnBlocking
  match task with
  | .error e => .throw <| .internal s!"scoring task failed: {e}"
  | .ok ()   =>
    let scored := scoreGraph state.lib matrix state.maxK
    return {
      cid             := scored.score.cid.toHex state.hex
      n               := req.n
      histogram       := scored.score.histogram.toJson
      goodmanGap      := scored.score.goodmanGap
      autOrder        := scored.score.autOrder
      canonicalGraph6 := scored.canonicalGraph6 }
