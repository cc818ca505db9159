import Extremal.Lib.Lexicographic
import Extremal.Scoring.Automorphism
import Extremal.Scoring.Score
import Extremal.Types.Json

open Lexicographic

namespace Engine

-- `target_k` of the strategy's configuration, read as `u32`.
def maxK (strategyConfig : Json) : Nat :=
  strategyConfig.getU64 "target_k" 5 % 2 ^ 32

-- The local score of a discovery.
def score (lib : Crates) (n maxK : Nat) (graph : AdjacencyMatrix) : GraphScore :=
  let (canonical, autOrder) := canonicalForm lib graph
  let cid := computeCid lib canonical
  let histogram := CliqueHistogram.compute graph maxK
  let (redTri, blueTri) := histogram.tier 3 |>.map (fun t => (t.red, t.blue)) |>.getD (0, 0)
  let gap := goodmanGap n redTri blueTri
  { histogram, goodmanGap := gap, autOrder, cid }

-- The bytes that the gate compares with the threshold.
def scoreBytes (lib : Crates) (strategyConfig : Json) (n : Nat) (graph : AdjacencyMatrix) : Word UInt8 :=
  ⟨(score lib n (maxK strategyConfig) graph).toScoreBytes (maxK strategyConfig)⟩

end Engine
