import Extremal.Store.Leaderboard
import Mathlib.Data.Fintype.Basic

open Lexicographic

-- Calls to `try_admit` whose statements interleave under `READ COMMITTED`. Each statement sees the rows
-- that were committed before it started and the writes of its own transaction.

-- The point that a call has reached. A `DELETE` first collects its rows and then takes them one by one.
inductive Phase
  | idle
  | existing
  | count
  | worst
  | evict (cid : String)
  | evicting (targets : List Nat)
  | rank
  | insert (newRank : Int32)
  | trim (newRank : Int32)
  | trimming (newRank : Int32) (targets : List Nat)
  | commit (admitted : Option Int32)
  | committed (admitted : Option Int32)
deriving DecidableEq

namespace Phase

def isCommitted : Phase → Bool
  | committed _ => true
  | _           => false

-- The rows that a running `DELETE` has yet to take.
def targets : Phase → List Nat
  | evicting targets   => targets
  | trimming _ targets => targets
  | _                  => []

end Phase

-- A row with the transactions that inserted and deleted it. The rows of the initial board have no
-- inserting transaction.
structure Version (m : Nat) where
  entry : LeaderboardEntry
  xmin  : Option (Fin m)
  xmax  : Option (Fin m)

structure Database (m : Nat) where
  versions : List (Version m)
  phase    : Fin m → Phase

-- The transaction that moves, the order in which its statement meets the rows, and the row that a
-- running `DELETE` takes.
structure Move (m : Nat) where
  tx   : Fin m
  scan : Scan
  row  : Nat

namespace Database

variable (s : Database m) (i : Fin m)

def init (rows : Rows) : Database m where
  versions := rows.map (⟨·, none, none⟩)
  phase _  := .idle

def isCommitted (xid : Fin m) : Bool :=
  (s.phase xid).isCommitted

def committedRows : Rows :=
  s.versions.filter (fun v => v.xmin.all s.isCommitted && !v.xmax.any s.isCommitted) |>.map (·.entry)

def sees (xid : Fin m) : Bool :=
  xid = i || s.isCommitted xid

def isVisible (v : Version m) : Bool :=
  v.xmin.all (s.sees i) && !v.xmax.any (s.sees i)

def snapshot : Rows :=
  s.versions.filter (s.isVisible i) |>.map (·.entry)

def goto (phase : Phase) : Database m :=
  { s with phase := Function.update s.phase i phase }

-- The rows that `DELETE FROM leaderboard WHERE n = $1 AND cid IN (...)` finds.
def collect (n : Int32) (cids : List String) : List Nat :=
  s.versions.zipIdx.filter (fun p => s.isVisible i p.1 && p.1.entry.n = n && p.1.entry.cid ∈ cids) |>.map (·.2)

-- Takes a row of a running `DELETE`. It waits for another open transaction that deletes the row and
-- skips a row that another transaction has deleted.
def take (row : Nat) (phase : Phase) : Option (Database m) :=
  match s.versions[row]? with
  | none   => none
  | some v =>
    match v.xmax with
    | some xid => if s.sees i xid then s.goto i phase else none
    | none     => some { s.goto i phase with versions := s.versions.set row { v with xmax := some i } }

-- Another open transaction decides whether the row is there.
def inDoubt (v : Version m) : Bool :=
  v.xmin.any (!s.sees i ·) || v.xmax.any (!s.sees i ·)

-- `INSERT ... ON CONFLICT (n, cid) DO NOTHING` waits for the transactions that decide about the key.
def insertNew (e : LeaderboardEntry) (phase : Phase) : Option (Database m) :=
  let same := s.versions.filter fun v => v.entry.n = e.n ∧ v.entry.cid = e.cid
  if same.any (s.inDoubt i) then none
  else if same.any (s.isVisible i) then s.goto i phase
  else some { s.goto i phase with versions := s.versions ++ [⟨e, some i, none⟩] }

def step (offers : Fin m → Offer) (s : Database m) (move : Move m) : Option (Database m) :=
  let i := move.tx
  let offer := offers i
  let rows := s.snapshot i
  match s.phase i with
  | .idle => s.goto i .existing
  | .existing =>
    if (rows.existing offer.n offer.cid).isSome then s.goto i <| .commit none
    else s.goto i .count
  | .count =>
    if rows.leaderboardCount offer.n ≥ offer.capacity.toInt then s.goto i .worst
    else s.goto i .rank
  | .worst =>
    match rows.worst offer.n move.scan with
    | some worst =>
      if offer.scoreBytes ≥ worst.scoreBytes then s.goto i <| .commit none
      else s.goto i <| .evict worst.cid
    | none => s.goto i .rank
  | .evict cid => s.goto i <| .evicting <| s.collect i offer.n [cid]
  | .evicting targets =>
    if targets = [] then s.goto i .rank
    else if move.row ∈ targets then s.take i move.row <| .evicting <| targets.erase move.row
    else none
  | .rank => s.goto i <| .insert <| offer.newRank rows
  | .insert newRank => s.insertNew i (offer.entry newRank) <| .trim newRank
  | .trim newRank =>
    s.goto i <| .trimming newRank <| s.collect i offer.n <| rows.excess offer.n offer.capacity move.scan
  | .trimming newRank targets =>
    if targets = [] then s.goto i <| .commit <| some newRank
    else if move.row ∈ targets then s.take i move.row <| .trimming newRank <| targets.erase move.row
    else none
  | .commit admitted => s.goto i <| .committed admitted
  | .committed _ => none

-- A transaction that fails before its commit. Its rows are never seen, and the rows that it has deleted
-- are back.
def rollback : Database m where
  versions := s.versions.map fun v =>
    if v.xmin = some i then { v with xmax := some i }
    else if v.xmax = some i then { v with xmax := none }
    else v
  phase := Function.update s.phase i <| .committed none

-- The runs whose steps all meet a condition.
inductive Run (offers : Fin m → Offer) (P : Database m → Move m → Prop) (s : Database m) : Database m → Prop
  | refl : Run offers P s s
  | step (r : Run offers P s s₁) (h : P s₁ move) (e : s₁.step offers move = some s₂) : Run offers P s s₂

end Database
