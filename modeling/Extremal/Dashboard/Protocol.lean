import Extremal.Types.Json

-- What a read of a WebSocket yields: a message, an error or the end of the stream.
inductive Recv
  | text (text : String)
  | binary
  | ping
  | pong
  | close
  | error
  | closed
deriving DecidableEq

structure ServerChallenge where
  nonce : String

structure Register where
  keyId          : String
  workerId       : String
  n              : UInt32
  strategy       : String
  metadata       : Option Json
  publicKeyHex   : Option String
  nonceSignature : Option String
  apiAddr        : Option String

structure Progress where
  iteration        : UInt64
  maxIters         : UInt64
  violationScore   : UInt32
  currentGraph6    : String
  discoveriesSoFar : UInt64

structure Discovery where
  graph6     : String
  cid        : String
  goodmanGap : Float
  autOrder   : Float
  scoreHex   : String
  histogram  : List (UInt32 × UInt64 × UInt64)
  iteration  : UInt64

structure RoundComplete where
  round       : UInt64
  durationMs  : UInt64
  discoveries : UInt64
  submitted   : UInt64
  admitted    : UInt64
  buffered    : Nat

inductive WorkerMessage
  | register (message : Register)
  | progress (message : Progress)
  | discovery (message : Discovery)
  | roundComplete (message : RoundComplete)

structure WorkerConnected where
  workerId : String
  keyId    : String
  n        : UInt32
  strategy : String
  metadata : Option Json
  verified : Bool
  apiAddr  : Option String

inductive UiEvent
  | workerConnected (event : WorkerConnected)
  | workerDisconnected (workerId : String)
  | workerEvent (workerId : String) (event : WorkerMessage)

-- The parsers of `serde_json` for the messages of the protocol.
structure Parsers where
  challenge     : String → Option ServerChallenge
  workerMessage : String → Option WorkerMessage
