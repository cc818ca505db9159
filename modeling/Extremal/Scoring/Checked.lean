import Extremal.Lib.CheckedSum
import Extremal.Scoring.Histogram

-- The clique counters with the panics of the source: a sum that overflows, a shift by the width of the
-- word or more, and an index out of bounds have no result.

namespace BitMask

def single? (v : Nat) : Option UInt64 :=
  if v < 64 then some (single v) else none

def higher? (v : Nat) : Option UInt64 := do
  let bit ← single? (v + 1)
  return ~~~(bit - 1)

end BitMask

open BitMask

namespace CheckedU64

-- The number of ones of a mask, if there was one to compute.
def ones : Option UInt64 → CheckedU64
  | none      => stopped
  | some mask => num (.ofNat (countOnes mask))

def value : CheckedU64 → Option UInt64
  | num a   => some a
  | stopped => none

end CheckedU64

open CheckedU64

namespace NeighborSet

def higherNeighbors? (nbrs : NeighborSet) (v : Nat) : Option UInt64 := do
  let mask ← nbrs.masks[v]?
  let higher ← higher? v
  return mask &&& higher

def higherNeighborsIn? (nbrs : NeighborSet) (candidates : UInt64) (v : Nat) : Option UInt64 :=
  nbrs.higherNeighbors? v |>.map (candidates &&& ·)

def hasEdge? (nbrs : NeighborSet) (u v : Nat) : Option Bool := do
  let mask ← nbrs.masks[u]?
  let bit ← single? v
  return mask &&& bit != 0

def commonNeighbors? (nbrs : NeighborSet) (u v : Nat) : Option UInt64 := do
  let maskU ← nbrs.masks[u]?
  let maskV ← nbrs.masks[v]?
  let bitU ← single? u
  let bitV ← single? v
  return maskU &&& maskV &&& ~~~bitU &&& ~~~bitV

end NeighborSet

def countCliquesInMask? (nbrs : NeighborSet) (candidates : UInt64) : (target : Nat) → CheckedU64
  | 0 => num 1
  | 1 => ones (some candidates)
  | 2 =>
    forBits candidates 0 fun count _ v => count + ones (nbrs.higherNeighborsIn? candidates v)
  | 3 =>
    forBits candidates 0 fun count _ a =>
      match nbrs.higherNeighborsIn? candidates a with
      | none             => stopped
      | some nbrsAInCand => forBits nbrsAInCand count fun count _ b => count + ones (nbrs.higherNeighborsIn? nbrsAInCand b)
  | target + 4 =>
    forBits candidates 0 fun count mask v =>
      match nbrs.masks[v]? with
      | none         => stopped
      | some maskOfV => count + countCliquesInMask? nbrs (mask &&& maskOfV) (target + 3)

def countCliques? (nbrs : NeighborSet) (k n : Nat) : CheckedU64 :=
  match k with
  | 0     => num 1
  | 1     => num (.ofNat n)
  | 2     => (List.range n).foldl (fun count v => count + ones (nbrs.higherNeighbors? v)) 0
  | k + 3 =>
    let count (total : CheckedU64) (v : Nat) :=
      match nbrs.higherNeighbors? v with
      | none            => stopped
      | some candidates => total + countCliquesInMask? nbrs candidates (k + 2)
    (List.range n).foldl count 0

-- The last branch of `countCliquesInMask` for every size.
def countCliquesGeneric (nbrs : NeighborSet) (candidates : UInt64) : (target : Nat) → UInt64
  | 0          => 1
  | target + 1 =>
    forBits candidates 0 fun count mask v =>
      count + countCliquesGeneric nbrs (mask &&& nbrs.mask v) target

def countCliquesThroughEdgeAssuming? (nbrs : NeighborSet) (k u v : Nat) (edgePresent : Bool) : CheckedU64 :=
  if k < 2 || !edgePresent then num 0
  else if k = 2 then num 1
  else match nbrs.commonNeighbors? u v with
    | none        => stopped
    | some common => if countOnes common < k - 2 then num 0 else countCliquesInMask? nbrs common (k - 2)

def countCliquesThroughEdge? (nbrs : NeighborSet) (k u v : Nat) : CheckedU64 :=
  if k < 2 then num 0
  else match nbrs.hasEdge? u v with
    | none         => stopped
    | some present => countCliquesThroughEdgeAssuming? nbrs k u v present

def checkedNeg (a : Int64) : Option Int64 :=
  if -a.toInt < 2 ^ 63 then some (-a) else none

def checkedSubI64 (a b : Int64) : Option Int64 :=
  if -2 ^ 63 ≤ a.toInt - b.toInt ∧ a.toInt - b.toInt < 2 ^ 63 then some (a - b) else none

def violationDelta? (adjNbrs compNbrs : NeighborSet) (k ell u v : Nat) : Option (Int64 × Int64) := do
  let edgePresent ← adjNbrs.hasEdge? u v
  let kcBefore ← (countCliquesThroughEdge? adjNbrs k u v).value
  let eiBefore ← (countCliquesThroughEdge? compNbrs ell u v).value
  if edgePresent then
    let eiAfter ← (countCliquesThroughEdgeAssuming? compNbrs ell u v true).value
    return (← checkedNeg kcBefore.toInt64, ← checkedSubI64 eiAfter.toInt64 eiBefore.toInt64)
  else
    let kcAfter ← (countCliquesThroughEdgeAssuming? adjNbrs k u v true).value
    return (← checkedSubI64 kcAfter.toInt64 kcBefore.toInt64, ← checkedNeg eiBefore.toInt64)

def markPair? (masks : List UInt64) (u v : Nat) : Option (List UInt64) := do
  guard (u < masks.length ∧ v < masks.length)
  let bitV ← single? v
  let bitU ← single? u
  return masks.modify u (· ||| bitV) |>.modify v (· ||| bitU)

def enumerateAndMarkRecurse? (nbrs : NeighborSet) :
    (remaining : Nat) → (clique : List Nat) → (candidates : UInt64) → List UInt64 → Option (List UInt64)
  | 0, clique, _, guilty =>
    (pairs clique.length).foldlM (fun guilty p => markPair? guilty (clique.getD p.1 0) (clique.getD p.2 0)) guilty
  | remaining + 1, clique, candidates, guilty =>
    if countOnes candidates < remaining + 1 then some guilty
    else forBits candidates (some guilty) fun guilty mask w => do
      let maskOfW ← nbrs.masks[w]?
      enumerateAndMarkRecurse? nbrs remaining (clique ++ [w]) (mask &&& maskOfW) (← guilty)

def enumerateCliquesAndMark? (nbrs : NeighborSet) (k n : Nat) (guilty : List UInt64) : Option (List UInt64) :=
  if k < 2 then some guilty
  else if k = 2 then
    let mark (guilty : List UInt64) (u : Nat) := do
      let mask ← nbrs.masks[u]?
      guard (u < guilty.length)
      return guilty.modify u (· ||| mask)
    (List.range n).foldlM mark guilty
  else
    let mark (guilty : List UInt64) (v : Nat) := do
      let candidates ← nbrs.higherNeighbors? v
      enumerateAndMarkRecurse? nbrs (k - 1) [v] candidates guilty
    (List.range n).foldlM mark guilty

def guiltyEdges? (adjNbrs compNbrs : NeighborSet) (k ell n : Nat) : Option (List (Nat × Nat)) := do
  let guilty ← enumerateCliquesAndMark? adjNbrs k n (List.replicate n 0)
  let guilty ← enumerateCliquesAndMark? compNbrs ell n guilty
  let edges ← (List.range n).mapM fun u => do
    let row ← guilty[u]?
    let higher ← higher? u
    return forBits (row &&& higher) [] fun edges _ v => edges ++ [(u, v)]
  return edges.flatten

def checkedSubU64 (a b : UInt64) : Option UInt64 :=
  if b ≤ a then some (a - b) else none

def checkedMulU64 (a b : UInt64) : Option UInt64 :=
  if a.toNat * b.toNat < 2 ^ 64 then some (a * b) else none

def goodmanMinimum? (n : Nat) : Option UInt64 :=
  if n < 3 then some 0
  else do
    let n := UInt64.ofNat n
    let cN3 := (← checkedMulU64 (← checkedMulU64 n (← checkedSubU64 n 1)) (← checkedSubU64 n 2)) / 6
    let floorTerm := (← checkedMulU64 n ((← checkedMulU64 (← checkedSubU64 n 1) (← checkedSubU64 n 1)) / 4)) / 2
    checkedSubU64 cN3 floorTerm
