import Extremal.Graph.Adjacency

open BitMask

-- Precomputed neighbour bitmasks: `masks[v]` has bit `w` set iff there is an edge between `v` and `w`.
structure NeighborSet where
  masks : List UInt64
deriving DecidableEq

namespace NeighborSet

def fromAdj (adj : AdjacencyMatrix) : NeighborSet where
  masks := adj.neighborMasks

def mask (nbrs : NeighborSet) (v : Nat) : UInt64 :=
  nbrs.masks.getD v 0

def flipEdge (nbrs : NeighborSet) (u v : Nat) : NeighborSet where
  masks := nbrs.masks.modify u (· ^^^ single v) |>.modify v (· ^^^ single u)

def hasEdge (nbrs : NeighborSet) (u v : Nat) : Bool :=
  nbrs.mask u &&& single v != 0

end NeighborSet

-- Counts the cliques of size `target` among the vertices in `candidates`, with special paths for the
-- sizes up to 3.
def countCliquesInMask (nbrs : NeighborSet) (candidates : UInt64) : (target : Nat) → UInt64
  | 0 => 1
  | 1 => .ofNat (countOnes candidates)
  | 2 =>
    forBits candidates 0 fun count _ v =>
      count + .ofNat (countOnes (candidates &&& nbrs.mask v &&& higher v))
  | 3 =>
    forBits candidates 0 fun count _ a =>
      let nbrsAInCand := nbrs.mask a &&& candidates &&& higher a
      forBits nbrsAInCand count fun count _ b =>
        count + .ofNat (countOnes (nbrsAInCand &&& nbrs.mask b &&& higher b))
  | target + 4 =>
    forBits candidates 0 fun count mask v =>
      count + countCliquesInMask nbrs (mask &&& nbrs.mask v) (target + 3)

def countCliques (nbrs : NeighborSet) (k n : Nat) : UInt64 :=
  match k with
  | 0     => 1
  | 1     => .ofNat n
  | 2     => (List.range n).foldl (fun count v => count + .ofNat (countOnes (nbrs.mask v &&& higher v))) 0
  | k + 3 => (List.range n).foldl (fun total v => total + countCliquesInMask nbrs (nbrs.mask v &&& higher v) (k + 2)) 0

def commonNeighbors (nbrs : NeighborSet) (u v : Nat) : UInt64 :=
  nbrs.mask u &&& nbrs.mask v &&& ~~~single u &&& ~~~single v

def countCliquesThroughEdge (nbrs : NeighborSet) (k u v : Nat) : UInt64 :=
  if k < 2 || !nbrs.hasEdge u v then 0
  else if k = 2 then 1
  else if countOnes (commonNeighbors nbrs u v) < k - 2 then 0
  else countCliquesInMask nbrs (commonNeighbors nbrs u v) (k - 2)

-- As above, for an edge that need not be in `nbrs`.
def countCliquesThroughEdgeAssuming (nbrs : NeighborSet) (k u v : Nat) (edgePresent : Bool) : UInt64 :=
  if k < 2 || !edgePresent then 0
  else if k = 2 then 1
  else if countOnes (commonNeighbors nbrs u v) < k - 2 then 0
  else countCliquesInMask nbrs (commonNeighbors nbrs u v) (k - 2)

-- The change of the number of `k`-cliques in the graph and of `ell`-cliques in the complement that
-- flipping the pair `u`, `v` causes.
def violationDelta (adjNbrs compNbrs : NeighborSet) (k ell u v : Nat) : Int64 × Int64 :=
  let kcBefore := countCliquesThroughEdge adjNbrs k u v |>.toInt64
  let eiBefore := countCliquesThroughEdge compNbrs ell u v |>.toInt64
  if adjNbrs.hasEdge u v then
    let eiAfter := countCliquesThroughEdgeAssuming compNbrs ell u v true |>.toInt64
    (-kcBefore, eiAfter - eiBefore)
  else
    let kcAfter := countCliquesThroughEdgeAssuming adjNbrs k u v true |>.toInt64
    (kcAfter - kcBefore, -eiBefore)

def fastFingerprint (masks : List UInt64) : UInt64 :=
  masks.foldl (fun h m => (h ^^^ m) * 0x100000001b3) 0xcbf29ce484222325

-- Extends `clique` by `remaining` vertices from `candidates` in all possible ways, and marks the pairs
-- of each completed clique. The source derives `remaining` from the clique's length.
def enumerateAndMarkRecurse (nbrs : NeighborSet) :
    (remaining : Nat) → (clique : List Nat) → (candidates : UInt64) → List UInt64 → List UInt64
  | 0, clique, _, guilty =>
    (pairs clique.length).foldl (fun guilty p => markPair guilty (clique.getD p.1 0) (clique.getD p.2 0)) guilty
  | remaining + 1, clique, candidates, guilty =>
    if countOnes candidates < remaining + 1 then guilty
    else forBits candidates guilty fun guilty mask w =>
      enumerateAndMarkRecurse nbrs remaining (clique ++ [w]) (mask &&& nbrs.mask w) guilty

def enumerateCliquesAndMark (nbrs : NeighborSet) (k n : Nat) (guilty : List UInt64) : List UInt64 :=
  if k < 2 then guilty
  else if k = 2 then
    (List.range n).foldl (fun guilty u => guilty.modify u (· ||| nbrs.mask u)) guilty
  else
    let mark (guilty : List UInt64) (v : Nat) :=
      enumerateAndMarkRecurse nbrs (k - 1) [v] (nbrs.mask v &&& higher v) guilty
    (List.range n).foldl mark guilty

-- The pairs `u < v` that lie in a `k`-clique of the graph or an `ell`-clique of the complement.
def guiltyEdges (adjNbrs compNbrs : NeighborSet) (k ell n : Nat) : List (Nat × Nat) :=
  let guilty := enumerateCliquesAndMark adjNbrs k n (List.replicate n 0)
  let guilty := enumerateCliquesAndMark compNbrs ell n guilty
  (List.range n).flatMap fun u =>
    forBits (guilty.getD u 0 &&& higher u) [] fun edges _ v => edges ++ [(u, v)]
