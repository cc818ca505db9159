import Extremal.Lib.SessionLock
import Extremal.Store.Tables

open SessionLock

-- A session of the database: a connection in the pool of a server.
structure PgSession where
  server     : Nat
  connection : Nat
deriving DecidableEq

abbrev AdvisoryLocks := Locks Int64 PgSession

namespace Store

variable (server : Nat) (key : Int64) (served : Except StoreError Nat) (locks : AdvisoryLocks)

-- The pool serves a call on one of its connections, or it fails.
def tryAdvisoryLock : Except StoreError Bool × AdvisoryLocks :=
  match served with
  | .error e       => (.error e, locks)
  | .ok connection =>
    let (acquired, locks) := locks.tryLock key ⟨server, connection⟩
    (.ok acquired, locks)

-- The answer of `pg_advisory_unlock` is not read.
def advisoryUnlock : Except StoreError Unit × AdvisoryLocks :=
  match served with
  | .error e       => (.error e, locks)
  | .ok connection => (.ok (), (locks.unlock key ⟨server, connection⟩).2)

end Store
