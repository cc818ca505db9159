import Extremal.Graph.Cid
import Extremal.Lib.Program
import Extremal.Server.Error

open Lexicographic

-- `render` is the text of a JSON value. `verifySignature` and `sign` use the keys of a worker and of the
-- server.
structure AppState where
  lib                 : Crates
  hex                 : Hex
  render              : Json → String
  verifySignature     : String → List UInt8 → String → Except String Bool
  sign                : List UInt8 → String
  serverKeyId         : String
  leaderboardCapacity : Int32
  maxK                : Nat
  maxN                : Nat

structure ReceiptResponse where
  serverKeyId : String
  signature   : String
  score       : Json

-- The response to `POST /api/submit`.
structure SubmitResponse where
  cid      : String
  verdict  : String
  admitted : Bool
  rank     : Option Int32
  receipt  : ReceiptResponse

-- The response to `GET /api/leaderboards/:n/threshold`.
structure ThresholdResponse where
  n                   : Int32
  count               : Nat
  capacity            : Int32
  thresholdScoreBytes : Option String

structure GraphItem where
  rank   : Int32
  cid    : String
  graph6 : List UInt8

inductive Response
  | submitted (response : SubmitResponse)
  | threshold (response : ThresholdResponse)
  | cids (cids : List String)
  | graphs (graphs : List GraphItem)

-- The maps of the cache.
inductive CacheMap
  | thresholds
  | cids
  | graphs
deriving DecidableEq

-- What a handler calls: a task for the scoring, the data layer and the cache. At last the server sends
-- the response.
inductive Call
  | spawnBlocking
  | store (query : Store.Query)
  | getThreshold (n : Int32)
  | setThreshold (n : Int32) (count : Nat) (threshold : Option (Word UInt8))
  | getCids (n : Int32)
  | setCids (n : Int32) (cids : List String)
  | getGraphs (n : Int32) (limit offset : Int64)
  | setGraphs (n : Int32) (limit offset : Int64) (graphs : List GraphItem)
  | remove (map : CacheMap) (n : Int32)
  | respond (result : Except ApiError Response)

abbrev Call.Answer : Call → Type
  | spawnBlocking   => Except String Unit
  | store query     => Except StoreError query.Answer
  | getThreshold _  => Option (Nat × Option (Word UInt8))
  | getCids _       => Option (List String)
  | getGraphs _ _ _ => Option (List GraphItem)
  | _               => Unit

abbrev Handler := Program Call Call.Answer ApiError

namespace Handler

-- An error of the data layer is an error of the handler.
def store (query : Store.Query) : Handler query.Answer :=
  .call (.store query) fun
    | .ok answer => .ret answer
    | .error e   => .throw <| .store e

-- Drops the entries for a board out of all maps.
def invalidate (n : Int32) : Handler Unit := do
  .perform <| Call.remove .thresholds n
  .perform <| Call.remove .cids n
  .perform <| Call.remove .graphs n

end Handler
