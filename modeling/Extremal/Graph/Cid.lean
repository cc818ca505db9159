import Extremal.Graph.Graph6

-- A content identifier: the 32 bytes of a hash.
structure GraphCid where
  bytes        : List UInt8
  length_bytes : bytes.length = 32
deriving DecidableEq

-- The external crates that the code calls. `densenauty` takes the order and the edges of a graph and
-- returns the array `lab` together with the order of the automorphism group, `blake3` hashes a byte
-- string.
structure Crates where
  densenauty : Nat → List (Nat × Nat) → List Nat × Float
  blake3     : List UInt8 → GraphCid

def computeCid (lib : Crates) (matrix : AdjacencyMatrix) : GraphCid :=
  lib.blake3 (Graph6.encode matrix)
