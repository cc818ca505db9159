import Extremal.Strategies.Tabu
import Extremal.Strategies.Tree2

abbrev SearchStrategy := SearchJob → (Nat → Nat) → (Nat → Bool) → SearchResult × Session

-- All built-in strategies.
def defaultStrategies (lib : Crates) : List SearchStrategy :=
  [tree2Search lib, tabuSearch lib]
