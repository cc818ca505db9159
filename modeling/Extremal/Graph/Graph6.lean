import Extremal.Graph.Adjacency

-- A graph6 string is modelled as the list of its bytes, all of which are ASCII.
namespace Graph6

inductive Graph6Error
  | empty
  | invalidChar (byte : UInt8)
  | tooLarge (n : Nat)
  | tooShort (n : Nat)
  | extraBytes
deriving DecidableEq

instance : ToString Graph6Error where
  toString
    | .empty         => "empty graph6 string"
    | .invalidChar b => s!"invalid graph6 character: {b}"
    | .tooLarge n    => s!"graph6 vertex count too large: {n} (max supported: 62)"
    | .tooShort n    => s!"graph6 string too short for {n} vertices"
    | .extraBytes    => "graph6 string has extra bytes"

-- The vertex pairs that `for j in 1..n { for i in 0..j { .. } }` visits, in that order.
def columnPairs (n : Nat) : List (Nat × Nat) :=
  (List.range' 1 (n - 1)).flatMap fun j => (List.range j).map fun i => (i, j)

def pad (bits : List Bool) : List Bool :=
  bits ++ List.replicate ((6 - bits.length % 6) % 6) false

def chunks : List Bool → List (List Bool)
  | a :: b :: c :: d :: e :: f :: rest => [a, b, c, d, e, f] :: chunks rest
  | []                                 => []
  | rest                               => [rest]

def packChunk (chunk : List Bool) : UInt8 :=
  chunk.zipIdx.foldl (fun byte b => if b.1 then byte ||| (1 <<< UInt8.ofNat (5 - b.2)) else byte) 0

def unpackByte (val : UInt8) : List Bool :=
  (List.range 6).map fun k => (val >>> UInt8.ofNat (5 - k)) &&& 1 == 1

-- The source asserts `n ≤ 62`.
def encode (matrix : AdjacencyMatrix) : List UInt8 :=
  let bits := (columnPairs matrix.n).map fun p => matrix.edge p.1 p.2
  (UInt8.ofNat matrix.n + 63) :: (chunks (pad bits)).map (packChunk · + 63)

def fromColumnBits (n : Nat) (bits : List Bool) : AdjacencyMatrix :=
  let place (matrix : AdjacencyMatrix) (p : (Nat × Nat) × Nat) :=
    if bits.getD p.2 false then matrix.setEdge p.1.1 p.1.2 true else matrix
  (columnPairs n).zipIdx.foldl place (.new n)

def decode (bytes : List UInt8) : Except Graph6Error AdjacencyMatrix :=
  match bytes with
  | []            => .error .empty
  | first :: rest =>
    match bytes.find? (fun b => b < 63 || 126 < b) with
    | some b => .error (.invalidChar b)
    | none   =>
      if first = 126 then .error (.tooLarge 0)
      else
        let n := (first - 63).toNat
        let expectedGroups := (AdjacencyMatrix.totalBits n + 5) / 6
        if n > 62 then .error (.tooLarge n)
        else if rest.length < expectedGroups then .error (.tooShort n)
        else if rest.length > expectedGroups then .error .extraBytes
        else .ok <| fromColumnBits n <| rest.flatMap fun b => unpackByte (b - 63)

end Graph6
