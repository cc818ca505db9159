import Extremal.Graph.Graph6

-- The functions of the codec with the panics of the source: a failed assertion, an index out of bounds and
-- an arithmetic overflow have no result.

def checkedAdd (a b : UInt8) : Option UInt8 :=
  if a.toNat + b.toNat < 256 then some (a + b) else none

def checkedSub (a b : UInt8) : Option UInt8 :=
  if b ≤ a then some (a - b) else none

namespace AdjacencyMatrix

def bitIndex? (n i j : Nat) : Option Nat :=
  if i < j ∧ i * (i + 1) / 2 ≤ i * n then some (bitIndex n i j) else none

def edge? (m : AdjacencyMatrix) (i j : Nat) : Option Bool :=
  if i = j then some false
  else do
    let idx ← bitIndex? m.n (min i j) (max i j)
    let byte ← m.bits[idx / 8]?
    return PackedBits.byteGet byte (7 - idx % 8)

def setEdge? (m : AdjacencyMatrix) (i j : Nat) (value : Bool) : Option AdjacencyMatrix :=
  if i = j then some m
  else do
    let idx ← bitIndex? m.n (min i j) (max i j)
    if idx / 8 < m.bits.length then m.setEdge i j value else none

def complement? (m : AdjacencyMatrix) : Option AdjacencyMatrix :=
  let flip (comp : AdjacencyMatrix) (p : Nat × Nat) := do
    comp.setEdge? p.1 p.2 !(← m.edge? p.1 p.2)
  (pairs m.n).foldlM flip (new m.n)

def permuteVertices? (m : AdjacencyMatrix) (perm : List Nat) : Option AdjacencyMatrix :=
  let relabel (result : AdjacencyMatrix) (p : Nat × Nat) := do
    if ← m.edge? p.1 p.2 then result.setEdge? (← perm[p.1]?) (← perm[p.2]?) true else return result
  if perm.length ≠ m.n then none else (pairs m.n).foldlM relabel (new m.n)

end AdjacencyMatrix

namespace Graph6

def encode? (matrix : AdjacencyMatrix) : Option (List UInt8) := do
  guard (matrix.n ≤ 62)
  let first ← checkedAdd (UInt8.ofNat matrix.n) 63
  let bits ← (columnPairs matrix.n).mapM fun p => matrix.edge? p.1 p.2
  let groups ← (chunks (pad bits)).mapM fun chunk => checkedAdd (packChunk chunk) 63
  -- The bytes are read as a string.
  guard ((first :: groups).all (· < 128))
  return first :: groups

def fromColumnBits? (n : Nat) (bits : List Bool) : Option AdjacencyMatrix :=
  let place (matrix : AdjacencyMatrix) (p : (Nat × Nat) × Nat) :=
    if bits.getD p.2 false then matrix.setEdge? p.1.1 p.1.2 true else some matrix
  (columnPairs n).zipIdx.foldlM place (.new n)

def decode? (bytes : List UInt8) : Option (Except Graph6Error AdjacencyMatrix) :=
  match bytes with
  | []            => some (.error .empty)
  | first :: rest =>
    match bytes.find? (fun b => b < 63 || 126 < b) with
    | some b => some (.error (.invalidChar b))
    | none   =>
      if first = 126 then some (.error (.tooLarge 0))
      else do
        let n := (← checkedSub first 63).toNat
        let expectedGroups := (AdjacencyMatrix.totalBits n + 5) / 6
        if n > 62 then return .error (.tooLarge n)
        else if rest.length < expectedGroups then return .error (.tooShort n)
        else if rest.length > expectedGroups then return .error .extraBytes
        else
          let groups ← rest.mapM fun b => (checkedSub b 63).map unpackByte
          let matrix ← fromColumnBits? n groups.flatten
          return .ok matrix

end Graph6
