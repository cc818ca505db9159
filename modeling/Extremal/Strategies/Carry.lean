import Extremal.Strategies
import Extremal.Worker.Snapshot

-- The strategies with all that the engine sees of them: what they say of themselves and what a search leaves for
-- the next round.

-- Removes the fingerprints that the iteration over a set yields first, if there are more than `MAX_CARRY_SIZE`.
def capSeen? (seen excess : Finset UInt64) : Option (Finset UInt64) :=
  if seen.card > 50000 then
    if excess ⊆ seen ∧ excess.card = seen.card - 50000 then some (seen \ excess) else none
  else some seen

-- The fingerprints that a search of tree2 has seen when it ends.
def tree2Seen (lib : Crates) (job : SearchJob) (rng : Nat → Nat) (cancelled : Nat → Bool) : Finset UInt64 :=
  let (seed, session) := seedGraph job (.start rng cancelled job.knownCids)
  let t := Tree2Search.start lib job seed session
  let t := Loop.run (Tree2Search.advance lib job) t (List.range (Tree2Config.ofJson job.config).maxDepth)
  t.seen

-- `seen` is without a value if the strategy carries nothing over.
structure Strategy where
  info   : StrategyInfo
  search : SearchStrategy
  seen   : SearchJob → (Nat → Nat) → (Nat → Bool) → Option (Finset UInt64)

namespace Strategy

def tree2 (lib : Crates) : Strategy where
  info                     := .tree2
  search                   := tree2Search lib
  seen job rng cancelled   := some (tree2Seen lib job rng cancelled)

def tabu (lib : Crates) : Strategy where
  info       := .tabu
  search     := tabuSearch lib
  seen _ _ _ := none

def builtIn (lib : Crates) : List Strategy :=
  [tree2 lib, tabu lib]

-- There is no result without a strategy, at which the source panics.
def find? (strategies : List Strategy) (id : String) : Option Strategy :=
  strategies.find? (·.info.id = id) <|> strategies.head?

end Strategy
