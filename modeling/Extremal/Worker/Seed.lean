import Extremal.Graph.Graph6
import Extremal.Strategies.Init

-- The graph that a round starts from. `rng` is what the generator of the engine yields.

-- A number of 53 random bits in the unit interval.
def genStandard (bits : Nat) : Float :=
  (bits % 2 ^ 53).toFloat / (2 ^ 53 : Nat).toFloat

-- A bias prefers the first graphs, which are the best ones.
def pickIndex (count : Nat) (sampleBias : Float) (bits : Nat) : Nat :=
  if sampleBias > 0.0 ∧ count > 1 then
    let biased := (genStandard bits).pow (1.0 / (1.0 - sampleBias + 0.01))
    min (biased * count.toFloat).toUInt64.toNat (count - 1)
  else bits % count

-- A graph of the leaderboard. `serverGraphs` is indexed without a check.
def pickFetched? (serverGraphs : List (List UInt8)) (sampleBias : Float) (bits : Nat) : Option (Option AdjacencyMatrix) :=
  if serverGraphs.isEmpty then some none
  else do
    let g6 ← serverGraphs[pickIndex serverGraphs.length sampleBias bits]?
    match Graph6.decode g6 with
    | .ok matrix => return some matrix
    | .error _   => return none

def withNoise? (noiseFlips : Nat) (rng : Nat → Nat) (graph : AdjacencyMatrix) : Option AdjacencyMatrix :=
  if noiseFlips > 0 then perturb? graph noiseFlips rng else some graph

-- There is no result where the source panics.
def pickSeed? (serverGraphs : List (List UInt8)) (n : Nat) (sampleBias : Float) (noiseFlips : Nat) (rng : Nat → Nat) :
    Option AdjacencyMatrix := do
  let noise (i : Nat) := rng (i + 1)
  match ← pickFetched? serverGraphs sampleBias (rng 0) with
  | some matrix => withNoise? noiseFlips noise matrix
  | none        => withNoise? noiseFlips noise (← paleyGraph? n)
