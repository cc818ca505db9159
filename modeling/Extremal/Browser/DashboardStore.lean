import Extremal.Lib.OrderedMap
import Extremal.Types.Json
import Extremal.Browser.Graph6

-- The store of the dashboard's web page. A field that a message may leave out is an `Option`.

namespace Browser

structure Progress where
  iteration        : Option Float
  maxIters         : Option Float
  violationScore   : Option Float
  currentGraph6    : Option JsString
  discoveriesSoFar : Option Float

structure Discovery where
  graph6     : Option JsString
  cid        : Option JsString
  goodmanGap : Option Float
  autOrder   : Option Float
  scoreHex   : Option JsString
  histogram  : Option (List (Float × Float × Float))
  iteration  : Option Float

structure RoundComplete where
  round      : Option Float
  durationMs : Option Float
  submitted  : Option Float
  admitted   : Option Float
  buffered   : Option Float

inductive WorkerMessage
  | register
  | progress (msg : Progress)
  | discovery (msg : Discovery)
  | roundComplete (msg : RoundComplete)

structure WorkerConnected where
  keyId    : Option JsString
  n        : Option Float
  strategy : Option JsString
  metadata : Option Json
  verified : Option Bool

inductive UiEvent
  | workerConnected (workerId : JsString) (event : WorkerConnected)
  | workerDisconnected (workerId : JsString)
  | workerEvent (workerId : JsString) (event : Option WorkerMessage)

structure HistogramTier where
  k    : Float
  red  : Float
  blue : Float

structure RainGemData where
  graph6     : JsString
  cid        : JsString
  n          : Float
  goodmanGap : Float
  autOrder   : Float
  scoreHex   : JsString
  histogram  : List HistogramTier
  workerId   : JsString
  iteration  : Float

structure WorkerState where
  workerId         : JsString
  keyId            : JsString
  n                : Float
  strategy         : JsString
  metadata         : Option Json
  connected        : Bool
  verified         : Bool
  iteration        : Float
  maxIters         : Float
  violationScore   : Float
  currentGraph6    : JsString
  discoveriesSoFar : Float
  round            : Float
  lastRoundMs      : Float
  totalSubmitted   : Float
  totalAdmitted    : Float
  buffered         : Float
  bestGems         : List RainGemData

structure DashboardStore where
  workers          : OrderedMap JsString WorkerState
  maxGemsPerColumn : Int
  columnOrder      : List JsString
  pendingEvents    : List UiEvent

def UiEvent.workerId : UiEvent → JsString
  | workerConnected workerId _ | workerDisconnected workerId | workerEvent workerId _ => workerId

-- Places a gem before the first one with a greater score.
def insertGem (gems : List RainGemData) (gem : RainGemData) : List RainGemData :=
  match gems.findIdx? (gem.scoreHex < ·.scoreHex) with
  | none           => gems ++ [gem]
  | some insertIdx => gems.insertIdx insertIdx gem

-- `gems.slice(0, stop)`: a negative end counts from the end of the list.
def slice (gems : List RainGemData) (stop : Int) : List RainGemData :=
  if stop < 0 then gems.take (gems.length + stop).toNat else gems.take stop.toNat

namespace WorkerState

variable (w : WorkerState)

def initial (workerId : JsString) (event : WorkerConnected) : WorkerState where
  workerId         := workerId
  keyId            := event.keyId.getD []
  n                := event.n.getD 0
  strategy         := event.strategy.getD []
  metadata         := event.metadata
  connected        := true
  verified         := event.verified.getD false
  iteration        := 0
  maxIters         := 0
  violationScore   := 0
  currentGraph6    := []
  discoveriesSoFar := 0
  round            := 0
  lastRoundMs      := 0
  totalSubmitted   := 0
  totalAdmitted    := 0
  buffered         := 0
  bestGems         := []

def progress (msg : Progress) : WorkerState :=
  { w with
    iteration        := msg.iteration.getD w.iteration
    maxIters         := msg.maxIters.getD w.maxIters
    violationScore   := msg.violationScore.getD w.violationScore
    currentGraph6    := msg.currentGraph6.getD w.currentGraph6
    discoveriesSoFar := msg.discoveriesSoFar.getD w.discoveriesSoFar }

def gem (workerId : JsString) (msg : Discovery) : RainGemData where
  graph6     := msg.graph6.getD []
  cid        := msg.cid.getD []
  n          := w.n
  goodmanGap := msg.goodmanGap.getD 0
  autOrder   := msg.autOrder.getD 1
  scoreHex   := msg.scoreHex.getD []
  histogram  := (msg.histogram.getD []).map fun (k, red, blue) => { k, red, blue }
  workerId   := workerId
  iteration  := msg.iteration.getD 0

-- A gem that the worker already has only gets a new timestamp.
def discovery (maxGemsPerColumn : Int) (workerId : JsString) (msg : Discovery) : WorkerState :=
  let gem := w.gem workerId msg
  match w.bestGems.findIdx? (·.cid = gem.cid) with
  | some _ => w
  | none   => { w with bestGems := slice (insertGem w.bestGems gem) maxGemsPerColumn }

def roundComplete (msg : RoundComplete) : WorkerState :=
  { w with
    round          := msg.round.getD w.round
    lastRoundMs    := msg.durationMs.getD w.lastRoundMs
    totalSubmitted := w.totalSubmitted + msg.submitted.getD 0
    totalAdmitted  := w.totalAdmitted + msg.admitted.getD 0
    buffered       := msg.buffered.getD w.buffered }

end WorkerState

namespace DashboardStore

variable (store : DashboardStore)

def applyWorkerMessage (workerId : JsString) (msg : WorkerMessage) : DashboardStore :=
  match store.workers.get workerId with
  | none   => store
  | some w =>
    match msg with
    | .register          => store
    | .progress msg      => { store with workers := store.workers.set workerId (w.progress msg) }
    | .discovery msg     =>
      { store with workers := store.workers.set workerId (w.discovery store.maxGemsPerColumn workerId msg) }
    | .roundComplete msg => { store with workers := store.workers.set workerId (w.roundComplete msg) }

-- The body of the loop over the events.
def applyEvent (event : UiEvent) : DashboardStore :=
  match event with
  | .workerConnected workerId event =>
    { store with
      workers     := store.workers.set workerId (.initial workerId event)
      columnOrder := if workerId ∈ store.columnOrder then store.columnOrder else store.columnOrder ++ [workerId] }
  | .workerDisconnected workerId =>
    match store.workers.get workerId with
    | none   => store
    | some w => { store with workers := store.workers.set workerId { w with connected := false } }
  | .workerEvent workerId (some msg) => store.applyWorkerMessage workerId msg
  | .workerEvent _ none              => store

def applyEvents (events : List UiEvent) : DashboardStore :=
  events.foldl applyEvent store

end DashboardStore

-- The body of the loop that takes the progress messages out of the batch.
def separate (acc : OrderedMap JsString Progress × List UiEvent) (event : UiEvent) :
    OrderedMap JsString Progress × List UiEvent :=
  match event with
  | .workerEvent workerId (some (.progress msg)) => (acc.1.set workerId msg, acc.2)
  | event                                        => (acc.1, acc.2 ++ [event])

def coalesceEvents (events : List UiEvent) : List UiEvent :=
  let (latestProgress, filtered) := events.foldl separate (.empty, [])
  filtered ++ latestProgress.entries.map fun (workerId, msg) => .workerEvent workerId (some (.progress msg))

def DashboardStore.flushEvents (store : DashboardStore) : DashboardStore :=
  let events := store.pendingEvents
  let store := { store with pendingEvents := [] }
  if events.isEmpty then store else store.applyEvents (coalesceEvents events)

end Browser
