import Extremal.Lib.Machine
import Extremal.Server.Snapshot

open SessionLock

-- The task has taken the lock and not yet called `advisory_unlock`.
def SnapshotPhase.InCycle : SnapshotPhase → Prop
  | listing | capturing _ | unlocking => True
  | sleeping | stopped                => False

namespace SnapshotSystem

def Captures (system : SnapshotSystem) (server : Nat) : Prop :=
  (system.tasks server).InCycle

-- A server that is not in a cycle holds no lock.
def Released (system : SnapshotSystem) : Prop :=
  ∀ server, ¬system.Captures server → ∀ connection, ¬system.locks.Holds 1 ⟨server, connection⟩

-- The call to `advisory_unlock` is served by the connection that holds the lock, and has taken it once.
def ServedByHolder (system : SnapshotSystem) (input : Input) : Prop :=
  ∀ server served, input = .advisoryUnlock server served →
    ∃ connection hold, served = .ok connection ∧ system.locks 1 = some hold ∧ hold.session = ⟨server, connection⟩ ∧
      hold.count = 1

-- What a step can do.
inductive Effect (system : SnapshotSystem) : Input → SnapshotSystem → Prop
  | idle (hc : ¬system.Captures server) (hp : ¬phase.InCycle) (hi : ∀ server served, input ≠ .advisoryUnlock server served) :
    Effect system input (system.setTask server phase)
  | busy (hc : system.Captures server) (hp : phase.InCycle) (hi : ∀ server served, input ≠ .advisoryUnlock server served) :
    Effect system input (system.setTask server phase)
  | lock (hc : ¬system.Captures server) (ht : (system.locks.tryLock 1 ⟨server, connection⟩).1 = true) :
    Effect system (.tryAdvisoryLock server (.ok connection))
      ({ system with locks := (system.locks.tryLock 1 ⟨server, connection⟩).2 }.setTask server .listing)
  | unlock (hc : system.Captures server) :
    Effect system (.advisoryUnlock server served)
      ({ system with locks := (Store.advisoryUnlock server 1 served system.locks).2 }.setTask server .sleeping)

variable {system system' : SnapshotSystem} {input : Input}

theorem captures_of_tasks {server : Nat} {phase : SnapshotPhase} (h : system.tasks server = phase) :
    system.Captures server ↔ phase.InCycle := by
  rw [Captures, h]

theorem setTask_of_tasks {server : Nat} {phase : SnapshotPhase} (h : system.tasks server = phase) :
    system.setTask server phase = system := by
  rw [setTask, ← h, Function.update_eq_self]

theorem inCycle_capture (boards : List Int32) : (SnapshotPhase.capture boards).InCycle := by
  cases boards <;> trivial

theorem step_effect (e : system.step input = some system') : Effect system input system' := by
  cases input <;> simp only [step] at e
  case cancelled server =>
    split at e <;> cases e
    case h_1 ht => exact .idle (captures_of_tasks ht).mp id nofun
  case tryAdvisoryLock server served =>
    split at e
    case h_2 => cases e
    case h_1 ht =>
      have hc : ¬system.Captures server := (captures_of_tasks ht).mp
      have idle : Effect system (.tryAdvisoryLock server served) system := by
        conv_rhs => rw [← setTask_of_tasks ht]
        exact .idle hc id nofun
      cases served <;> simp only [Store.tryAdvisoryLock] at e
      case error =>
        cases e
        exact idle
      case ok connection =>
        cases hl : (system.locks.tryLock 1 ⟨server, connection⟩).1 <;> simp only [hl] at e
        case false =>
          rw [Locks.tryLock_snd_of_false hl] at e
          cases e
          exact idle
        case true =>
          cases e
          exact .lock hc hl
  case listLeaderboardNs server boards =>
    split at e
    case h_2 => cases e
    case h_1 ht =>
      have hc : system.Captures server := (captures_of_tasks ht).mpr trivial
      split at e <;> cases e
      case h_1 boards => exact .busy hc (inCycle_capture boards) nofun
      case h_2        => exact .busy hc trivial nofun
  case captureSnapshot server result =>
    split at e <;> cases e
    case h_1 boards ht => exact .busy ((captures_of_tasks ht).mpr trivial) (inCycle_capture boards.tail) nofun
  case advisoryUnlock server served =>
    split at e <;> cases e
    case h_1 ht => exact .unlock <| (captures_of_tasks ht).mpr trivial

section Captures

variable {server other : Nat} {phase : SnapshotPhase} {locks : AdvisoryLocks}

theorem captures_setTask_self : ({ system with locks }.setTask server phase).Captures server ↔ phase.InCycle := by
  simp [Captures, setTask]

theorem captures_setTask_of_ne (h : other ≠ server) :
    ({ system with locks }.setTask server phase).Captures other ↔ system.Captures other := by
  simp [Captures, setTask, h]

end Captures

theorem session_eq_of_holds {a b : PgSession} (ha : system.locks.Holds 1 a) (hb : system.locks.Holds 1 b) : a = b := by
  have ⟨hold, h, ha⟩ := ha
  have ⟨hold', h', hb⟩ := hb
  cases h.symm.trans h'
  exact ha.symm.trans hb

-- A server that captures snapshots holds the lock.
def Locked (system : SnapshotSystem) : Prop :=
  ∀ server, system.Captures server → ∃ connection, system.locks.Holds 1 ⟨server, connection⟩

theorem Locked.unique {server server' : Nat} (h : system.Locked) (hc : system.Captures server)
    (hc' : system.Captures server') : server = server' := by
  have ⟨_, hl⟩ := h server hc
  have ⟨_, hl'⟩ := h server' hc'
  exact congrArg PgSession.server <| session_eq_of_holds hl hl'

theorem Locked.step (h : system.Locked) (e : system.step input = some system') : system'.Locked := by
  intro other hc
  cases step_effect e
  case idle server phase _ hp _ =>
    by_cases ho : other = server
    case pos =>
      subst ho
      exact absurd (captures_setTask_self.mp hc) hp
    case neg => exact h other <| (captures_setTask_of_ne ho).mp hc
  case busy server phase hs _ _ =>
    by_cases ho : other = server
    case pos =>
      subst ho
      exact h other hs
    case neg => exact h other <| (captures_setTask_of_ne ho).mp hc
  case lock server connection hs ht =>
    by_cases ho : other = server
    case pos =>
      subst ho
      exact ⟨connection, Locks.holds_of_tryLock ht⟩
    case neg =>
      have ⟨_, hold, hl, hh⟩ := h other <| (captures_setTask_of_ne ho).mp hc
      have := hh.symm.trans <| Locks.tryLock_fst_iff.mp ht hold hl
      exact absurd (congrArg PgSession.server this) ho
  case unlock server served hs =>
    by_cases ho : other = server
    case pos =>
      subst ho
      exact (captures_setTask_self.mp hc).elim
    case neg => exact absurd (h.unique ((captures_setTask_of_ne ho).mp hc) hs) ho

-- A call to `advisory_unlock` frees the lock if and only if it reaches the connection that has taken it once.
theorem advisoryUnlock_eq_none_iff {server connection : Nat} {served : Except StoreError Nat}
    {hold : Hold PgSession} (hl : system.locks 1 = some hold) (hs : hold.session = ⟨server, connection⟩) :
    (Store.advisoryUnlock server 1 served system.locks).2 1 = none ↔ served = .ok connection ∧ hold.count = 1 := by
  cases served
  case error => simp [Store.advisoryUnlock, hl]
  case ok other =>
    by_cases ho : hold.session = ⟨server, other⟩
    case pos =>
      have hc : other = connection := congrArg PgSession.connection <| ho.symm.trans hs
      rw [Store.advisoryUnlock]
      dsimp only
      rw [Locks.unlock_of_eq hl ho, Hold.release_eq_none_iff, hc]
      simp
    case neg =>
      have hc : other ≠ connection := by
        rintro rfl
        exact ho hs
      simp [Store.advisoryUnlock, Locks.unlock_of_ne hl ho, hl, hc]

-- What is left of the lock after a call to `advisory_unlock` is held by the same server.
theorem holds_of_advisoryUnlock {server connection : Nat} {served : Except StoreError Nat} {hold hold' : Hold PgSession}
    (hl : system.locks 1 = some hold) (hs : hold.session = ⟨server, connection⟩)
    (hl' : (Store.advisoryUnlock server 1 served system.locks).2 1 = some hold') : hold'.session = ⟨server, connection⟩ := by
  cases served
  case error =>
    cases hl.symm.trans hl'
    exact hs
  case ok other =>
    rw [Store.advisoryUnlock] at hl'
    by_cases ho : hold.session = ⟨server, other⟩
    case pos =>
      dsimp only at hl'
      rw [Locks.unlock_of_eq hl ho] at hl'
      exact (Hold.session_of_release hl').trans hs
    case neg =>
      dsimp only at hl'
      rw [Locks.unlock_of_ne hl ho] at hl'
      cases hl.symm.trans hl'
      exact hs

theorem servedByHolder_advisoryUnlock_iff {server connection : Nat} {served : Except StoreError Nat}
    {hold : Hold PgSession} (hl : system.locks 1 = some hold) (hs : hold.session = ⟨server, connection⟩) :
    system.ServedByHolder (.advisoryUnlock server served) ↔ served = .ok connection ∧ hold.count = 1 := by
  constructor
  case mp =>
    intro h
    have ⟨connection', hold', hs', hl', hh', hc⟩ := h server served rfl
    cases hl.symm.trans hl'
    cases hs.symm.trans hh'
    exact ⟨hs', hc⟩
  case mpr =>
    rintro ⟨rfl, hc⟩ server served ⟨⟩
    exact ⟨connection, hold, rfl, hl, hs, hc⟩

-- A step leaves no lock behind if and only if a call to `advisory_unlock` reaches the connection with the lock.
theorem Released.step_iff (h : system.Locked) (hr : system.Released) (e : system.step input = some system') :
    system'.Released ↔ system.ServedByHolder input := by
  cases step_effect e
  case idle server phase hs hp hi =>
    refine iff_of_true (fun other ho => hr other ?_) fun server served hu => absurd hu <| hi server served
    by_cases hos : other = server
    case pos => exact hos ▸ hs
    case neg => exact mt (captures_setTask_of_ne hos).mpr ho
  case busy server phase hs hp hi =>
    refine iff_of_true (fun other ho => hr other ?_) fun server served hu => absurd hu <| hi server served
    have hos : other ≠ server := by
      rintro rfl
      exact ho <| captures_setTask_self.mpr hp
    exact mt (captures_setTask_of_ne hos).mpr ho
  case lock server connection hs ht =>
    refine iff_of_true (fun other ho connection' hl => ?_) nofun
    have hos : server = other := congrArg PgSession.server <| session_eq_of_holds (Locks.holds_of_tryLock ht) hl
    subst hos
    exact ho <| captures_setTask_self.mpr trivial
  case unlock server served hs =>
    have ⟨connection, hold, hl, hh⟩ := h server hs
    rw [servedByHolder_advisoryUnlock_iff hl hh, ← advisoryUnlock_eq_none_iff hl hh]
    constructor
    case mp =>
      intro hr
      rw [Option.eq_none_iff_forall_ne_some]
      intro hold' hl'
      exact hr server (mt captures_setTask_self.mp id) connection ⟨hold', hl', holds_of_advisoryUnlock hl hh hl'⟩
    case mpr =>
      intro hn other _ connection' ⟨hold', hl', _⟩
      cases hn.symm.trans hl'

theorem locked_new : new.Locked :=
  fun _ hc => hc.elim

theorem released_new : new.Released := by
  intro server _ connection ⟨hold, hl, _⟩
  cases hl

theorem locked_of_execute {inputs : List Input} (e : Machine.execute step new inputs = some system) : system.Locked :=
  Machine.execute_invariant (fun _ => Locked) Locked.step locked_new e

-- A session gets the lock when no server captures snapshots and none has left the lock behind.
theorem Released.tryLock (hr : system.Released) (hc : ∀ server, ¬system.Captures server) (session : PgSession) :
    (system.locks.tryLock 1 session).1 = true := by
  refine Locks.tryLock_fst_iff.mpr fun hold hl => ?_
  exact absurd ⟨hold, hl, rfl⟩ <| hr hold.session.server (hc _) hold.session.connection

-- At most one server captures snapshots. Servers leave no lock behind in a run if and only if all their calls to
-- `advisory_unlock` reach the connection that has taken the lock.
theorem releases_lock_iff {inputs : List Input} (e : Machine.execute step new inputs = some system) :
    (∀ server server', system.Captures server → system.Captures server' → server = server') ∧
    ((∀ before, before <+: inputs → ∀ reached, Machine.execute step new before = some reached →
      reached.Released ∧ ((∀ server, ¬reached.Captures server) → ∀ session, (reached.locks.tryLock 1 session).1 = true)) ↔
      Machine.Along step ServedByHolder new inputs) := by
  refine ⟨fun server server' => (locked_of_execute e).unique, ?_⟩
  rw [← Machine.always_iff_along Locked.step Released.step_iff locked_new released_new e]
  refine forall₄_congr fun before _ reached _ => ⟨And.left, fun hr => ⟨hr, hr.tryLock⟩⟩

-- Two servers with two connections each.
namespace TwoServers

-- A cycle of a server without leaderboards.
def cycle (server lock unlock : Nat) : List Input :=
  [.tryAdvisoryLock server (.ok lock), .listLeaderboardNs server (.ok []), .advisoryUnlock server (.ok unlock)]

end TwoServers

open TwoServers in
theorem releases_lock_iff_cycles :
    ∃ system, Machine.execute step new (cycle 0 1 1 ++ cycle 1 0 0) = some system ∧
      ∀ before, before <+: cycle 0 1 1 ++ cycle 1 0 0 → ∀ reached, Machine.execute step new before = some reached →
        reached.Released := by
  have along : Machine.Along step ServedByHolder new (cycle 0 1 1 ++ cycle 1 0 0) := by
    refine .cons nofun rfl <| .cons nofun rfl <| .cons ?_ rfl <| .cons nofun rfl <| .cons nofun rfl <| .cons ?_ rfl .nil
    · rintro _ _ ⟨⟩
      exact ⟨1, _, rfl, rfl, rfl, rfl⟩
    · rintro _ _ ⟨⟩
      exact ⟨0, _, rfl, rfl, rfl, rfl⟩
  have ⟨system, e⟩ : ∃ system, Machine.execute step new (cycle 0 1 1 ++ cycle 1 0 0) = some system := ⟨_, rfl⟩
  exact ⟨system, e, fun before hb reached hr => ((releases_lock_iff e).2.mpr along before hb reached hr).1⟩

-- The unlock of the first server is served by another connection, and the second server does not get the lock.
open TwoServers in
theorem leaked_lock :
    ∃ system, Machine.execute step new (cycle 0 0 1) = some system ∧ ¬system.Captures 0 ∧
      system.locks.Holds 1 ⟨0, 0⟩ ∧ ∀ connection, (system.locks.tryLock 1 ⟨1, connection⟩).1 = false :=
  ⟨_, rfl, id, ⟨_, rfl, rfl⟩, fun _ => rfl⟩

end SnapshotSystem
