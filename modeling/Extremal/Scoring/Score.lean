import Extremal.Lib.PositiveFloat
import Extremal.Graph.Cid
import Extremal.Scoring.Histogram

open Lexicographic PositiveFloat

structure GraphScore where
  histogram  : CliqueHistogram
  goodmanGap : UInt64
  autOrder   : Float
  cid        : GraphCid
deriving DecidableEq

def tierKey (red blue : UInt64) : UInt64 × UInt64 :=
  if red ≥ blue then (red, blue) else (blue, red)

-- The clique sizes `maxK, ..., 3`.
def tiersDown (maxK : Nat) : List Nat :=
  (List.range' 3 (maxK - 2)).reverse

namespace GraphScore

-- The compared pair of a tier, `(0, 0)` for a tier that the histogram lacks.
def tierKeyAt (score : GraphScore) (k : Nat) : UInt64 × UInt64 :=
  match score.histogram.tier k with
  | some tier => tierKey tier.red tier.blue
  | none      => (0, 0)

def invAut (score : GraphScore) : Float :=
  if score.autOrder > 0.0 then 1.0 / score.autOrder else 1.0

def toScoreBytes (score : GraphScore) (maxK : Nat) : List UInt8 :=
  let tiers := (tiersDown maxK).flatMap fun k =>
    let (hi, lo) := score.tierKeyAt k
    beWord.encode hi ++ beWord.encode lo
  tiers ++ beWord.encode score.goodmanGap ++ toBeBytes score.invAut ++ score.cid.bytes

-- Compares the tiers from the highest one of either score down to 3, then the Goodman gap, the order
-- of the automorphism group (higher is better) and the identifier.
def cmp (self other : GraphScore) : Ordering :=
  let maxK := max (self.histogram.maxK.getD 2) (other.histogram.maxK.getD 2)
  let tail :=
    (compare self.goodmanGap other.goodmanGap).then <|
    ((partialCmp other.autOrder self.autOrder).getD .eq).then <|
    compare self.cid.bytes other.cid.bytes
  (tiersDown maxK).foldr (fun k rest =>
    (compare (self.tierKeyAt k).1 (other.tierKeyAt k).1).then <|
    (compare (self.tierKeyAt k).2 (other.tierKeyAt k).2).then rest) tail

end GraphScore
