import Extremal.Lib.Coalescing
import Extremal.Browser.DashboardStore

namespace Browser

open Coalescing

namespace UiEvent

def isProgress : UiEvent → Bool
  | workerEvent _ (some (.progress _)) => true
  | _                                  => false

def isConnected : UiEvent → Bool
  | workerConnected _ _ => true
  | _                   => false

-- What an event does to the worker that it is about.
def step (maxGemsPerColumn : Int) (w : Option WorkerState) : UiEvent → Option WorkerState
  | workerConnected workerId event                     => some <| .initial workerId event
  | workerDisconnected _                               => w.map ({ · with connected := false })
  | workerEvent _ (some (.progress msg))               => w.map (·.progress msg)
  | workerEvent workerId (some (.discovery msg))       => w.map (·.discovery maxGemsPerColumn workerId msg)
  | workerEvent _ (some (.roundComplete msg))          => w.map (·.roundComplete msg)
  | workerEvent _ (some .register) | workerEvent _ none => w

end UiEvent

namespace DashboardStore

variable {store : DashboardStore} {workerId : JsString} {event : UiEvent} {msg : WorkerMessage}

-- An event leaves the workers alone, or sets the one that it is about.
theorem applyEvent_cases (store : DashboardStore) (event : UiEvent) :
    (store.applyEvent event).maxGemsPerColumn = store.maxGemsPerColumn ∧
    ((store.applyEvent event).workers = store.workers ∧
      event.step store.maxGemsPerColumn (store.workers.get event.workerId) = store.workers.get event.workerId ∨
    ∃ w, event.step store.maxGemsPerColumn (store.workers.get event.workerId) = some w ∧
      (store.applyEvent event).workers = store.workers.set event.workerId w) := by
  cases event
  case workerConnected => exact ⟨rfl, .inr ⟨_, rfl, rfl⟩⟩
  case workerDisconnected workerId =>
    rw [applyEvent, UiEvent.workerId]
    cases h : store.workers.get workerId
    case none => exact ⟨rfl, .inl ⟨rfl, rfl⟩⟩
    case some => exact ⟨rfl, .inr ⟨_, rfl, rfl⟩⟩
  case workerEvent workerId msg =>
    rw [UiEvent.workerId]
    cases msg
    case none => exact ⟨rfl, .inl ⟨rfl, rfl⟩⟩
    case some msg =>
      rw [applyEvent, applyWorkerMessage.eq_def]
      cases h : store.workers.get workerId
      case none =>
        cases msg <;> exact ⟨rfl, .inl ⟨rfl, rfl⟩⟩
      case some w =>
        cases msg
        case register      => exact ⟨rfl, .inl ⟨rfl, rfl⟩⟩
        case progress      => exact ⟨rfl, .inr ⟨_, rfl, rfl⟩⟩
        case discovery     => exact ⟨rfl, .inr ⟨_, rfl, rfl⟩⟩
        case roundComplete => exact ⟨rfl, .inr ⟨_, rfl, rfl⟩⟩

theorem get_applyEvent (store : DashboardStore) (event : UiEvent) (workerId : JsString) :
    (store.applyEvent event).workers.get workerId =
    if event.workerId = workerId then event.step store.maxGemsPerColumn (store.workers.get workerId)
    else store.workers.get workerId := by
  have ⟨_, h⟩ := applyEvent_cases store event
  split
  case isTrue hw =>
    subst hw
    obtain ⟨hw, hs⟩ | ⟨w, hs, hw⟩ := h
    case inl => rw [hw, hs]
    case inr => rw [hw, hs, OrderedMap.get_set_self]
  case isFalse hne =>
    obtain ⟨hw, -⟩ | ⟨w, -, hw⟩ := h
    case inl => rw [hw]
    case inr => rw [hw, OrderedMap.get_set_of_ne fun h => hne h.symm]

-- A worker only sees its own events.
theorem get_applyEvents (store : DashboardStore) (events : List UiEvent) (workerId : JsString) :
    (store.applyEvents events).workers.get workerId =
    (events.filter (·.workerId = workerId)).foldl (UiEvent.step store.maxGemsPerColumn) (store.workers.get workerId) := by
  induction events generalizing store with
  | nil => rfl
  | cons event events ih =>
    have hm := (applyEvent_cases store event).1
    rw [applyEvents, List.foldl_cons, ← applyEvents, ih, get_applyEvent, hm]
    by_cases h : event.workerId = workerId
    case pos => simp [h]
    case neg => simp [h]

end DashboardStore

section Coalesce

def UiEvent.ofProgress (entry : JsString × Progress) : UiEvent :=
  .workerEvent entry.1 (some (.progress entry.2))

theorem UiEvent.eq_ofProgress {event : UiEvent} (h : event.isProgress) : ∃ entry, event = .ofProgress entry := by
  match event with
  | .workerEvent workerId (some (.progress msg)) => exact ⟨(workerId, msg), rfl⟩

variable {acc : OrderedMap JsString Progress × List UiEvent}

theorem separate_ofProgress (entry : JsString × Progress) :
    separate acc (.ofProgress entry) = (acc.1.set entry.1 entry.2, acc.2) :=
  rfl

theorem separate_of_not_isProgress {event : UiEvent} (h : event.isProgress = false) :
    separate acc event = (acc.1, acc.2 ++ [event]) := by
  rw [separate.eq_def]
  split
  case h_1 => cases h
  case h_2 => rfl

theorem separate_snd (events : List UiEvent) :
    (events.foldl separate (.empty, [])).2 = events.filter (!·.isProgress) := by
  induction events using List.reverseRecOn with
  | nil => rfl
  | append_singleton events event ih =>
    rw [List.foldl_concat, List.filter_append, ← ih]
    cases h : event.isProgress
    case false =>
      rw [separate_of_not_isProgress h]
      simp [h]
    case true =>
      obtain ⟨entry, rfl⟩ := UiEvent.eq_ofProgress h
      rw [separate_ofProgress]
      exact (List.append_nil _).symm

-- The map holds the last progress message of each worker.
theorem separate_fst (events : List UiEvent) (workerId : JsString) :
    ((events.foldl separate (.empty, [])).1.get workerId).map (.ofProgress ⟨workerId, ·⟩) =
    ((events.filter (·.workerId = workerId)).filter (·.isProgress)).getLast? := by
  induction events using List.reverseRecOn with
  | nil => rfl
  | append_singleton events event ih =>
    rw [List.foldl_concat, List.filter_append, List.filter_append, List.getLast?_append, ← ih]
    cases h : event.isProgress
    case false =>
      rw [separate_of_not_isProgress h, List.filter_filter]
      simp [h]
    case true =>
      obtain ⟨entry, rfl⟩ := UiEvent.eq_ofProgress h
      rw [separate_ofProgress]
      by_cases hw : workerId = entry.1
      case pos =>
        subst hw
        rw [OrderedMap.get_set_self, List.filter_filter]
        simp [UiEvent.ofProgress, UiEvent.workerId, UiEvent.isProgress]
      case neg =>
        have hn : ¬(UiEvent.ofProgress entry).workerId = workerId := fun he => hw he.symm
        rw [OrderedMap.get_set_of_ne hw, List.filter_filter]
        simp [hn]

theorem coalesceEvents_eq (events : List UiEvent) : coalesceEvents events =
    events.filter (!·.isProgress) ++ (events.foldl separate (.empty, [])).1.entries.map .ofProgress := by
  rw [← separate_snd]
  rfl

-- The batch that is applied is the coalesced one of each worker.
theorem filter_coalesceEvents (events : List UiEvent) (workerId : JsString) :
    (coalesceEvents events).filter (·.workerId = workerId) =
    coalesce UiEvent.isProgress (events.filter (·.workerId = workerId)) := by
  have hf : (fun event : UiEvent => decide (event.workerId = workerId)) ∘ .ofProgress =
      fun entry => decide (entry.1 = workerId) := rfl
  rw [coalesceEvents_eq, List.filter_append, List.filter_comm, List.filter_map, hf, OrderedMap.filter_entries, coalesce,
    ← separate_fst]
  cases (events.foldl separate (.empty, [])).1.get workerId <;> rfl

end Coalesce

namespace WorkerState

variable {w : WorkerState} {maxGemsPerColumn : Int} {workerId : JsString} {msg : Discovery}

theorem discovery_eq : ∃ gems, w.discovery maxGemsPerColumn workerId msg = { w with bestGems := gems } := by
  rw [discovery]
  split
  case h_1 => exact ⟨_, rfl⟩
  case h_2 => exact ⟨_, rfl⟩

-- The part of the state that progress messages do not change.
def clearProgress (w : WorkerState) : WorkerState :=
  { w with iteration := 0, maxIters := 0, violationScore := 0, currentGraph6 := [], discoveriesSoFar := 0 }

theorem clearProgress_discovery : (w.discovery maxGemsPerColumn workerId msg).clearProgress =
    w.clearProgress.discovery maxGemsPerColumn workerId msg := by
  rw [discovery, discovery]
  cases h : w.bestGems.findIdx? (·.cid = (w.gem workerId msg).cid)
  case some =>
    have h' : w.clearProgress.bestGems.findIdx? (·.cid = (w.clearProgress.gem workerId msg).cid) = _ := h
    simp only [h']
  case none =>
    have h' : w.clearProgress.bestGems.findIdx? (·.cid = (w.clearProgress.gem workerId msg).cid) = _ := h
    simp only [h']
    rfl

-- The states agree but for what progress messages change.
theorem map_clearProgress_step (w : Option WorkerState) {event : UiEvent} (h : event.isProgress = false) :
    (event.step maxGemsPerColumn w).map clearProgress = event.step maxGemsPerColumn (w.map clearProgress) := by
  cases event
  case workerConnected    => rfl
  case workerDisconnected => cases w <;> rfl
  case workerEvent _ msg  =>
    cases msg
    case none     => rfl
    case some msg =>
      cases msg
      case register      => rfl
      case progress      => cases h
      case discovery     =>
        cases w
        case none   => rfl
        case some w => exact congrArg some clearProgress_discovery
      case roundComplete => cases w <;> rfl

theorem map_clearProgress_step_progress (w : Option WorkerState) {event : UiEvent} (h : event.isProgress) :
    (event.step maxGemsPerColumn w).map clearProgress = w.map clearProgress := by
  obtain ⟨entry, rfl⟩ := UiEvent.eq_ofProgress h
  cases w <;> rfl

theorem map_clearProgress_coalesce (w : Option WorkerState) (log : List UiEvent) :
    ((coalesce UiEvent.isProgress log).foldl (UiEvent.step maxGemsPerColumn) w).map clearProgress =
    (log.foldl (UiEvent.step maxGemsPerColumn) w).map clearProgress := by
  refine view_foldl_coalesce (fun w _ => map_clearProgress_step_progress w) (fun w w' event h => ?_) w log
  cases he : event.isProgress
  case true  => rw [map_clearProgress_step_progress w he, map_clearProgress_step_progress w' he, h]
  case false => rw [map_clearProgress_step w he, map_clearProgress_step w' he, h]

end WorkerState

-- A field that only the progress messages write, and that is reset when the worker connects.
structure Field (β : Type) where
  get               : WorkerState → β
  written           : Progress → Option β
  initial           : β
  get_initial       : ∀ workerId event, get (.initial workerId event) = initial := by intros; rfl
  get_progress      : ∀ w msg, get (w.progress msg) = (written msg).getD (get w) := by intros; rfl
  get_connected     : ∀ w connected, get { w with connected } = get w := by intros; rfl
  get_bestGems      : ∀ w bestGems, get { w with bestGems } = get w := by intros; rfl
  get_roundComplete : ∀ w msg, get (w.roundComplete msg) = get w := by intros; rfl

namespace Field

def iteration : Field Float where
  get     := (·.iteration)
  written := (·.iteration)
  initial := 0

def maxIters : Field Float where
  get     := (·.maxIters)
  written := (·.maxIters)
  initial := 0

def violationScore : Field Float where
  get     := (·.violationScore)
  written := (·.violationScore)
  initial := 0

def currentGraph6 : Field JsString where
  get     := (·.currentGraph6)
  written := (·.currentGraph6)
  initial := []

def discoveriesSoFar : Field Float where
  get     := (·.discoveriesSoFar)
  written := (·.discoveriesSoFar)
  initial := 0

variable {β : Type} (field : Field β)

-- What an event does to the field.
def access : UiEvent → Access β
  | .workerConnected _ _                  => .reset
  | .workerEvent _ (some (.progress msg)) => .write (field.written msg)
  | _                                     => .other

theorem isWrite_access (event : UiEvent) : (field.access event).isWrite = event.isProgress := by
  obtain _ | _ | ⟨_, _ | _ | _ | _ | _⟩ := event <;> rfl

variable {field} {w : Option WorkerState} {x : β} {maxGemsPerColumn : Int}

theorem get_step (h : ∀ v ∈ w, field.get v = x) (event : UiEvent) :
    ∀ v ∈ event.step maxGemsPerColumn w, field.get v = (field.access event).apply field.initial x := by
  intro v hv
  cases event
  case workerConnected =>
    cases hv
    exact field.get_initial _ _
  case workerDisconnected =>
    obtain ⟨v, hw, rfl⟩ := Option.map_eq_some_iff.mp hv
    exact (field.get_connected v false).trans <| h v hw
  case workerEvent _ msg =>
    cases msg
    case none     => exact h v hv
    case some msg =>
      cases msg
      case register => exact h v hv
      case progress =>
        obtain ⟨v, hw, rfl⟩ := Option.map_eq_some_iff.mp hv
        rw [field.get_progress, h v hw]
        rfl
      case discovery =>
        obtain ⟨v, hw, rfl⟩ := Option.map_eq_some_iff.mp hv
        obtain ⟨gems, hg⟩ := v.discovery_eq
        rw [hg, field.get_bestGems]
        exact h v hw
      case roundComplete =>
        obtain ⟨v, hw, rfl⟩ := Option.map_eq_some_iff.mp hv
        exact (field.get_roundComplete v _).trans <| h v hw

theorem get_foldl_step (h : ∀ v ∈ w, field.get v = x) (log : List UiEvent) :
    ∀ v ∈ log.foldl (UiEvent.step maxGemsPerColumn) w, field.get v = run field.initial x (log.map field.access) := by
  induction log generalizing w x with
  | nil => exact h
  | cons event log ih => exact ih <| get_step h event

-- The events of a batch that are about a worker leave the same value in the field if they are coalesced.
def Harmless (field : Field β) (w : Option WorkerState) (log : List UiEvent) : Prop :=
  Coalescing.Harmless field.initial (w.elim field.initial field.get) (log.map field.access)

theorem get_eq_iff {log : List UiEvent} {v v' : WorkerState}
    (h : (coalesce UiEvent.isProgress log).foldl (UiEvent.step maxGemsPerColumn) w = some v)
    (h' : log.foldl (UiEvent.step maxGemsPerColumn) w = some v') :
    field.get v = field.get v' ↔ field.Harmless w log := by
  have hw : ∀ v ∈ w, field.get v = w.elim field.initial field.get := by
    rintro v rfl
    rfl
  rw [get_foldl_step hw _ v h, get_foldl_step hw _ v' h', map_coalesce field.isWrite_access, run_coalesce_eq_iff, Harmless]

end Field

-- The coalesced events leave all fields of a worker as they would be.
structure Harmless (w : Option WorkerState) (log : List UiEvent) : Prop where
  iteration        : Field.iteration.Harmless w log
  maxIters         : Field.maxIters.Harmless w log
  violationScore   : Field.violationScore.Harmless w log
  currentGraph6    : Field.currentGraph6.Harmless w log
  discoveriesSoFar : Field.discoveriesSoFar.Harmless w log

namespace WorkerState

variable {w : Option WorkerState} {log : List UiEvent} {maxGemsPerColumn : Int}

theorem eq_of_clearProgress {v v' : WorkerState} (h : v.clearProgress = v'.clearProgress) : v = v' ↔
    v.iteration = v'.iteration ∧ v.maxIters = v'.maxIters ∧ v.violationScore = v'.violationScore ∧
    v.currentGraph6 = v'.currentGraph6 ∧ v.discoveriesSoFar = v'.discoveriesSoFar := by
  cases v
  cases v'
  simp_all [clearProgress]

theorem isSome_foldl_step (w : Option WorkerState) (log : List UiEvent) :
    (log.foldl (UiEvent.step maxGemsPerColumn) w).isSome ↔ w.isSome ∨ log.any (·.isConnected) := by
  induction log generalizing w with
  | nil => simp
  | cons event log ih =>
    rw [List.foldl_cons, ih, List.any_cons]
    obtain _ | _ | ⟨_, _ | _ | _ | _ | _⟩ := event <;> simp [UiEvent.step, UiEvent.isConnected]

theorem foldl_coalesce_eq_iff : (coalesce UiEvent.isProgress log).foldl (UiEvent.step maxGemsPerColumn) w =
    log.foldl (UiEvent.step maxGemsPerColumn) w ↔ (w.isSome ∨ log.any (·.isConnected) → Harmless w log) := by
  have hc : Option.map clearProgress ((coalesce UiEvent.isProgress log).foldl (UiEvent.step maxGemsPerColumn) w) =
    Option.map clearProgress (log.foldl (UiEvent.step maxGemsPerColumn) w) := map_clearProgress_coalesce w log
  rw [← isSome_foldl_step w log]
  cases h' : log.foldl (UiEvent.step maxGemsPerColumn) w
  case none =>
    rw [h', Option.map_none, Option.map_eq_none_iff] at hc
    exact iff_of_true hc nofun
  case some v' =>
    rw [h', Option.map_some] at hc
    obtain ⟨v, h, hv⟩ := Option.map_eq_some_iff.mp hc
    rw [h, Option.some_inj, eq_of_clearProgress hv]
    constructor
    case mp =>
      intro ⟨h₁, h₂, h₃, h₄, h₅⟩ _
      exact {
        iteration        := Field.get_eq_iff h h' |>.mp h₁
        maxIters         := Field.get_eq_iff h h' |>.mp h₂
        violationScore   := Field.get_eq_iff h h' |>.mp h₃
        currentGraph6    := Field.get_eq_iff h h' |>.mp h₄
        discoveriesSoFar := Field.get_eq_iff h h' |>.mp h₅ }
    case mpr =>
      intro hm
      have hm := hm rfl
      exact ⟨Field.get_eq_iff h h' |>.mpr hm.iteration, Field.get_eq_iff h h' |>.mpr hm.maxIters,
        Field.get_eq_iff h h' |>.mpr hm.violationScore, Field.get_eq_iff h h' |>.mpr hm.currentGraph6,
        Field.get_eq_iff h h' |>.mpr hm.discoveriesSoFar⟩

end WorkerState

namespace DashboardStore

variable (store : DashboardStore)

-- The pending events that are about a worker.
def log (workerId : JsString) : List UiEvent :=
  store.pendingEvents.filter (·.workerId = workerId)

-- The worker is in the map, or connects in the batch.
def Known (workerId : JsString) : Prop :=
  (store.workers.get workerId).isSome ∨ (store.log workerId).any (·.isConnected)

theorem get_flushEvents (workerId : JsString) : store.flushEvents.workers.get workerId =
    (coalesce UiEvent.isProgress (store.log workerId)).foldl (UiEvent.step store.maxGemsPerColumn)
      (store.workers.get workerId) := by
  rw [flushEvents]
  split
  case isTrue h =>
    rw [log, List.isEmpty_iff.mp h]
    rfl
  case isFalse =>
    rw [log, ← filter_coalesceEvents]
    exact get_applyEvents _ _ _

theorem flushEvents_iff :
    (∀ workerId, store.flushEvents.workers.get workerId =
      (store.applyEvents store.pendingEvents).workers.get workerId) ↔
    ∀ workerId, store.Known workerId → Harmless (store.workers.get workerId) (store.log workerId) := by
  refine forall_congr' fun workerId => ?_
  rw [get_flushEvents, get_applyEvents]
  exact WorkerState.foldl_coalesce_eq_iff

-- A worker whose progress arrives between two connections.
def reconnecting : DashboardStore where
  workers          := .empty
  maxGemsPerColumn := 20
  columnOrder      := []
  pendingEvents    := [
    .workerConnected [119] ⟨none, none, none, none, none⟩,
    .workerEvent [119] (some (.progress ⟨some 5, none, none, some [65, 95], none⟩)),
    .workerConnected [119] ⟨none, none, none, none, none⟩]

-- The graph of the closed connection stays on the page.
theorem flushEvents_reconnecting : reconnecting.flushEvents.workers.get [119] ≠
    (reconnecting.applyEvents reconnecting.pendingEvents).workers.get [119] := by
  have hf : (reconnecting.flushEvents.workers.get [119]).map (·.currentGraph6) = some [65, 95] := rfl
  have ha : ((reconnecting.applyEvents reconnecting.pendingEvents).workers.get [119]).map (·.currentGraph6) = some [] :=
    rfl
  intro h
  rw [h, ha] at hf
  cases hf

section ColumnOrder

variable {store store' : DashboardStore} {event : UiEvent}

theorem columnOrder_applyWorkerMessage (workerId : JsString) (msg : WorkerMessage) :
    (store.applyWorkerMessage workerId msg).columnOrder = store.columnOrder := by
  rw [applyWorkerMessage.eq_def]
  cases store.workers.get workerId
  case none => rfl
  case some => cases msg <;> rfl

theorem columnOrder_applyEvent (h : store.columnOrder = store'.columnOrder) :
    (store.applyEvent event).columnOrder = (store'.applyEvent event).columnOrder := by
  cases event
  case workerConnected => simp [applyEvent, h]
  case workerDisconnected workerId =>
    rw [applyEvent, applyEvent]
    cases store.workers.get workerId <;> cases store'.workers.get workerId <;> exact h
  case workerEvent _ msg =>
    cases msg
    case none => exact h
    case some => rw [applyEvent, applyEvent, columnOrder_applyWorkerMessage, columnOrder_applyWorkerMessage, h]

-- The progress messages say nothing about the columns.
theorem columnOrder_flushEvents (store : DashboardStore) :
    store.flushEvents.columnOrder = (store.applyEvents store.pendingEvents).columnOrder := by
  rw [flushEvents]
  split
  case isTrue h =>
    rw [List.isEmpty_iff.mp h]
    rfl
  case isFalse =>
    have hw (store : DashboardStore) (event : UiEvent) (he : event.isProgress) :
        (store.applyEvent event).columnOrder = store.columnOrder := by
      obtain ⟨entry, rfl⟩ := UiEvent.eq_ofProgress he
      exact columnOrder_applyWorkerMessage _ _
    have hl : ∀ event ∈ (store.pendingEvents.foldl separate (.empty, [])).1.entries.map UiEvent.ofProgress,
        event.isProgress := by
      intro event he
      obtain ⟨entry, -, rfl⟩ := List.mem_map.mp he
      rfl
    have hc : { store with pendingEvents := [] : DashboardStore }.columnOrder = store.columnOrder := rfl
    rw [coalesceEvents_eq, applyEvents, applyEvents, List.foldl_append, view_foldl_writes hw hl]
    exact view_foldl_filter hw (fun _ _ _ => columnOrder_applyEvent) hc store.pendingEvents

end ColumnOrder
end DashboardStore
end Browser
