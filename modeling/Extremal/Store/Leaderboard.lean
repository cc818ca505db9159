import Extremal.Lib.Lexicographic
import Mathlib.Data.List.Sort
import Mathlib.Data.List.Nodup

open Lexicographic

structure LeaderboardEntry where
  n          : Int32
  cid        : String
  keyId      : String
  scoreBytes : Word UInt8
  rank       : Int32
  admittedAt : Nat
deriving DecidableEq

-- The rows of the table that a statement sees.
abbrev Rows := List LeaderboardEntry

-- The order in which the database meets the rows of a query. It decides between rows that `ORDER BY`
-- leaves equal.
structure Scan where
  order : Rows → Rows
  perm  : ∀ rows, (order rows).Perm rows

def Scan.heap : Scan where
  order := id
  perm  := .refl

namespace Rows

variable (rows : Rows) (n : Int32) (capacity : Int32) (scan : Scan)

-- `WHERE n = $1`
def board : Rows :=
  rows.filter (·.n = n)

-- `SELECT rank FROM leaderboard WHERE n = $1 AND cid = $2`
def existing (cid : String) : Option Int32 :=
  (rows.board n).find? (·.cid = cid) |>.map (·.rank)

def leaderboardCount : Nat :=
  (rows.board n).length

-- `ORDER BY score_bytes DESC`
def worstFirst : Rows :=
  (scan.order <| rows.board n).insertionSort (·.scoreBytes ≥ ·.scoreBytes)

def worst : Option LeaderboardEntry :=
  (rows.worstFirst n scan).head?

def betterCount (scoreBytes : Word UInt8) : Nat :=
  (rows.board n).countP (·.scoreBytes < scoreBytes)

-- `LIMIT GREATEST(0, COUNT(*) - $2)`
def excess : List String :=
  (rows.worstFirst n scan).take (rows.leaderboardCount n - capacity.toInt).toNat |>.map (·.cid)

-- `DELETE FROM leaderboard WHERE n = $1 AND cid IN (...)`
def delete (cids : List String) : Rows :=
  rows.filter fun e => ¬(e.n = n ∧ e.cid ∈ cids)

-- `INSERT INTO leaderboard ... ON CONFLICT (n, cid) DO NOTHING`
def insertNew (e : LeaderboardEntry) : Rows :=
  if rows.any fun e' => e'.n = e.n ∧ e'.cid = e.cid then rows else rows ++ [e]

def leaderboardThreshold : Option (Word UInt8) :=
  (scan.order <| rows.board n).insertionSort (·.rank ≥ ·.rank) |>.head? |>.map (·.scoreBytes)

-- `SELECT cid ... WHERE n = $1 [AND admitted_at > $2]`, ordered by the admission or by the score.
def leaderboardCids (since : Option Nat) : List String :=
  let rows : Rows := match since with
    | some since =>
      (scan.order <| (rows.board n).filter (·.admittedAt > since)).insertionSort (·.admittedAt ≤ ·.admittedAt)
    | none => (scan.order <| rows.board n).insertionSort (·.scoreBytes ≤ ·.scoreBytes)
  rows.map (·.cid)

-- The ranks and CIDs in the rows of `get_leaderboard_rich`: `ROW_NUMBER() OVER (ORDER BY score_bytes ASC)`.
-- By the keys of the tables each row joins with one graph, and with one score at most.
def richRanks : List (Int32 × String) :=
  (scan.order <| rows.board n).insertionSort (·.scoreBytes ≤ ·.scoreBytes) |>.zipIdx 1 |>.map fun (e, i) => (.ofNat i, e.cid)

end Rows

-- The committed table: its primary key is `(n, cid)`.
structure Leaderboard where
  rows       : Rows
  primaryKey : (rows.map fun e => (e.n, e.cid)).Nodup

namespace Leaderboard

variable (table : Leaderboard)

def empty : Leaderboard where
  rows       := []
  primaryKey := List.nodup_nil

def delete (n : Int32) (cids : List String) : Leaderboard where
  rows       := table.rows.delete n cids
  primaryKey := table.primaryKey.sublist <| List.filter_sublist.map _

def insertNew (e : LeaderboardEntry) : Leaderboard where
  rows       := table.rows.insertNew e
  primaryKey := by
    rw [Rows.insertNew]
    split
    case isTrue  => exact table.primaryKey
    case isFalse h =>
      rw [List.map_append]
      refine table.primaryKey.append (List.nodup_singleton _) fun k hk he => h ?_
      have ⟨e', hm, hk⟩ := List.mem_map.mp hk
      rw [List.map_singleton, List.mem_singleton, ← hk] at he
      exact List.any_eq_true.mpr ⟨e', hm, by simpa using he⟩

def trimLeaderboard (n capacity : Int32) (scan : Scan) : Leaderboard :=
  table.delete n <| table.rows.excess n capacity scan

end Leaderboard

-- The arguments of a call to `try_admit`, together with the time of its transaction and the order in
-- which it meets the rows.
structure Offer where
  n          : Int32
  cid        : String
  keyId      : String
  scoreBytes : Word UInt8
  capacity   : Int32
  now        : Nat
  scan       : Scan

namespace Offer

variable (offer : Offer) (table : Leaderboard)

def entry (rank : Int32) : LeaderboardEntry where
  n          := offer.n
  cid        := offer.cid
  keyId      := offer.keyId
  scoreBytes := offer.scoreBytes
  rank       := rank
  admittedAt := offer.now

-- `(better_count + 1) as i32`
def newRank (rows : Rows) : Int32 :=
  .ofNat (rows.betterCount offer.n offer.scoreBytes + 1)

-- Makes room on a full board: the table without the worst entry, or nothing if the offer does not
-- beat that entry.
def evictWorst : Option Leaderboard :=
  if table.rows.leaderboardCount offer.n ≥ offer.capacity.toInt then
    match table.rows.worst offer.n offer.scan with
    | some worst =>
      if offer.scoreBytes ≥ worst.scoreBytes then none
      else some <| table.delete offer.n [worst.cid]
    | none => some table
  else some table

def tryAdmit : Option Int32 × Leaderboard :=
  if (table.rows.existing offer.n offer.cid).isSome then (none, table)
  else
    match offer.evictWorst table with
    | none => (none, table)
    | some table =>
      let newRank := offer.newRank table.rows
      let table := table.insertNew <| offer.entry newRank
      (some newRank, table.trimLeaderboard offer.n offer.capacity offer.scan)

end Offer

-- The table after a sequence of calls.
def Leaderboard.admitAll (table : Leaderboard) (offers : List Offer) : Leaderboard :=
  offers.foldl (fun table offer => (offer.tryAdmit table).2) table
