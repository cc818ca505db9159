import Extremal.Store.AdvisoryLock

open SessionLock

-- The task of a server that captures snapshots of the leaderboards.
inductive SnapshotPhase
  | sleeping
  | listing
  | capturing (boards : List Int32)
  | unlocking
  | stopped

def SnapshotPhase.capture : List Int32 → SnapshotPhase
  | []     => unlocking
  | boards => capturing boards

-- The servers share the locks of the database.
structure SnapshotSystem where
  locks : AdvisoryLocks
  tasks : Nat → SnapshotPhase

namespace SnapshotSystem

-- What the token and the calls to the data layer yield.
inductive Input
  | cancelled (server : Nat)
  | tryAdvisoryLock (server : Nat) (served : Except StoreError Nat)
  | listLeaderboardNs (server : Nat) (boards : Except StoreError (List Int32))
  | captureSnapshot (server : Nat) (result : Except StoreError Unit)
  | advisoryUnlock (server : Nat) (served : Except StoreError Nat)

def new : SnapshotSystem where
  locks   := .free
  tasks _ := .sleeping

variable (system : SnapshotSystem)

def setTask (server : Nat) (phase : SnapshotPhase) : SnapshotSystem :=
  { system with tasks := Function.update system.tasks server phase }

-- One step of a task. Its errors are only logged.
def step : Input → Option SnapshotSystem
  | .cancelled server                 =>
    match system.tasks server with
    | .sleeping => some <| system.setTask server .stopped
    | _         => none
  | .tryAdvisoryLock server served    =>
    match system.tasks server with
    | .sleeping =>
      match Store.tryAdvisoryLock server 1 served system.locks with
      | (.ok true, locks) => some <| { system with locks }.setTask server .listing
      | (_, locks)        => some { system with locks }
    | _         => none
  | .listLeaderboardNs server boards  =>
    match system.tasks server with
    | .listing =>
      match boards with
      | .ok boards => some <| system.setTask server <| .capture boards
      | .error _   => some <| system.setTask server .unlocking
    | _        => none
  | .captureSnapshot server _         =>
    match system.tasks server with
    | .capturing boards => some <| system.setTask server <| .capture boards.tail
    | _                 => none
  | .advisoryUnlock server served     =>
    match system.tasks server with
    | .unlocking =>
      let (_, locks) := Store.advisoryUnlock server 1 served system.locks
      some <| { system with locks }.setTask server .sleeping
    | _          => none

end SnapshotSystem
