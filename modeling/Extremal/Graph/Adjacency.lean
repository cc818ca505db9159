import Mathlib.Combinatorics.SimpleGraph.Basic
import Mathlib.Algebra.BigOperators.Group.List.Basic
import Extremal.Lib.PackedBits
import Extremal.Lib.BitMask

-- The vertex pairs that `for i in 0..n { for j in (i + 1)..n { .. } }` visits, in that order.
def pairs (n : Nat) : List (Nat × Nat) :=
  (List.range n).flatMap fun i => (List.range' (i + 1) (n - (i + 1))).map fun j => (i, j)

-- Sets bit `v` of mask `u` and bit `u` of mask `v`.
def markPair (masks : List UInt64) (u v : Nat) : List UInt64 :=
  masks.modify u (· ||| BitMask.single v) |>.modify v (· ||| BitMask.single u)

-- A packed upper-triangular adjacency matrix. `n * (n - 1) / 2` bits are packed into bytes, most
-- significant bit first.
structure AdjacencyMatrix where
  n           : Nat
  bits        : List UInt8
  length_bits : bits.length = (n * (n - 1) / 2 + 7) / 8
deriving DecidableEq

namespace AdjacencyMatrix

def totalBits (n : Nat) : Nat :=
  if n < 2 then 0 else n * (n - 1) / 2

theorem totalBits_eq (n : Nat) : totalBits n = n * (n - 1) / 2 := by
  rcases n with _ | _ | n <;> simp [totalBits]

def new (n : Nat) : AdjacencyMatrix where
  n           := n
  bits        := List.replicate ((totalBits n + 7) / 8) 0
  length_bits := by simp [totalBits_eq]

def fromBits (n : Nat) (bits : List UInt8) : Except String AdjacencyMatrix :=
  if h : bits.length ≠ (totalBits n + 7) / 8 then
    .error "bit vector length does not match vertex count"
  else
    .ok { n, bits, length_bits := by simpa [totalBits_eq] using h }

-- The position of the pair `i < j` in the packed upper triangle.
def bitIndex (n i j : Nat) : Nat :=
  i * n - i * (i + 1) / 2 + (j - i - 1)

def edge (m : AdjacencyMatrix) (i j : Nat) : Bool :=
  if i = j then false else PackedBits.get m.bits (bitIndex m.n (min i j) (max i j))

def setEdge (m : AdjacencyMatrix) (i j : Nat) (value : Bool) : AdjacencyMatrix :=
  if i = j then m
  else { m with
    bits        := PackedBits.set m.bits (bitIndex m.n (min i j) (max i j)) value
    length_bits := by rw [PackedBits.length_set, m.length_bits] }

def numEdges (m : AdjacencyMatrix) : Nat :=
  m.bits.map (fun b => (List.range 8).countP b.toBitVec.getLsbD) |>.sum

def neighbors (m : AdjacencyMatrix) (v : Nat) : List Nat :=
  (List.range m.n).filter (m.edge v ·)

def degree (m : AdjacencyMatrix) (v : Nat) : Nat :=
  (m.neighbors v).length

def complement (m : AdjacencyMatrix) : AdjacencyMatrix :=
  (pairs m.n).foldl (fun comp p => comp.setEdge p.1 p.2 !(m.edge p.1 p.2)) (new m.n)

-- `perm[i]` is the new label of the old vertex `i`. The source asserts that `perm` has length `n`.
def permuteVertices (m : AdjacencyMatrix) (perm : List Nat) : AdjacencyMatrix :=
  let relabel (result : AdjacencyMatrix) (p : Nat × Nat) :=
    if m.edge p.1 p.2 then result.setEdge (perm.getD p.1 0) (perm.getD p.2 0) true else result
  (pairs m.n).foldl relabel (new m.n)

-- `masks[v]` has bit `w` set iff there is an edge between `v` and `w`. The source asserts `n ≤ 64`.
def neighborMasks (m : AdjacencyMatrix) : List UInt64 :=
  let mark (masks : List UInt64) (p : Nat × Nat) :=
    if m.edge p.1 p.2 then markPair masks p.1 p.2 else masks
  (pairs m.n).foldl mark (List.replicate m.n 0)

@[simp]
theorem edge_self (m : AdjacencyMatrix) (i : Nat) : m.edge i i = false := by
  simp [edge]

theorem edge_comm (m : AdjacencyMatrix) (i j : Nat) : m.edge i j = m.edge j i := by
  simp [edge, eq_comm, min_comm, max_comm]

-- The simple graph that a matrix stores.
def graph (m : AdjacencyMatrix) : SimpleGraph (Fin m.n) where
  Adj i j  := m.edge i j
  symm     := ⟨fun i j h => by rwa [edge_comm]⟩
  loopless := ⟨fun i => by simp⟩

instance (m : AdjacencyMatrix) : DecidableRel m.graph.Adj :=
  fun i j => inferInstanceAs (Decidable (m.edge i j = true))

end AdjacencyMatrix
