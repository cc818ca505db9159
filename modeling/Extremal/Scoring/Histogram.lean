import Mathlib.Data.List.DropRight
import Extremal.Scoring.Clique

structure HistogramTier where
  k    : Nat
  red  : UInt64
  blue : UInt64
deriving DecidableEq

structure CliqueHistogram where
  tiers : List HistogramTier
  n     : Nat
deriving DecidableEq

namespace CliqueHistogram

-- Counts the cliques of sizes `3, ..., maxK` in the graph and its complement, and trims the empty
-- tiers at the top.
def compute (matrix : AdjacencyMatrix) (maxK : Nat) : CliqueHistogram :=
  let adjNbrs := NeighborSet.fromAdj matrix
  let compNbrs := NeighborSet.fromAdj matrix.complement
  let tiers := (List.range' 3 (maxK - 2)).map fun k =>
    { k, red := countCliques adjNbrs k matrix.n, blue := countCliques compNbrs k matrix.n : HistogramTier }
  { tiers := tiers.rdropWhile fun t => t.red = 0 ∧ t.blue = 0, n := matrix.n }

def maxK (histogram : CliqueHistogram) : Option Nat :=
  histogram.tiers.getLast?.map (·.k)

def isValidRamsey (histogram : CliqueHistogram) (k ell : Nat) : Bool :=
  histogram.tiers.all fun tier => !(tier.k == k && tier.red > 0) && !(tier.k == ell && tier.blue > 0)

def tier (histogram : CliqueHistogram) (k : Nat) : Option HistogramTier :=
  histogram.tiers.find? (·.k == k)

end CliqueHistogram

-- The least possible number of monochromatic triangles on `n` vertices.
def goodmanMinimum (n : Nat) : UInt64 :=
  if n < 3 then 0
  else
    let n := UInt64.ofNat n
    n * (n - 1) * (n - 2) / 6 - n * ((n - 1) * (n - 1) / 4) / 2

def goodmanGap (n : Nat) (redTriangles blueTriangles : UInt64) : UInt64 :=
  let actual := redTriangles + blueTriangles
  let minimum := goodmanMinimum n
  if actual < minimum then 0 else actual - minimum
