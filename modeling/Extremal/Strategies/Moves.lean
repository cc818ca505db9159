import Extremal.Strategies.Session

-- The best of the moves that a tabu walk has looked at in one step: `bestMove` of those that are not
-- tabu, `bestAspiration` of those that would set a record.
structure MoveScan (μ : Type) where
  bestMove       : Option μ
  bestAspiration : Option μ
  session        : Session

section Best

variable (key : μ → κ)

-- The first of the moves with the least key.
def keepBest [LE κ] [DecidableLE κ] (best : Option μ) (move : μ) : Option μ :=
  if best.any (key move ≥ key ·) then best else some move

-- The aspiration move wins if it is strictly better.
def chooseMove [LT κ] [DecidableLT κ] (aspiration regular : Option μ) : Option μ :=
  match aspiration, regular with
  | some asp, some reg => if key asp < key reg then some asp else some reg
  | some asp, none     => some asp
  | none,     some reg => some reg
  | none,     none     => none

end Best

namespace MoveScan

variable {μ : Type}

def start (session : Session) : MoveScan μ where
  bestMove       := none
  bestAspiration := none
  session        := session

variable (key : μ → κ)

def consider [LE κ] [DecidableLE κ] (scan : MoveScan μ) (move : μ) (isTabu aspires : Bool) (events : List Event) : MoveScan μ where
  bestMove       := if isTabu then scan.bestMove else keepBest key scan.bestMove move
  bestAspiration := if aspires then keepBest key scan.bestAspiration move else scan.bestAspiration
  session        := scan.session.log events

def chosen [LT κ] [DecidableLT κ] (scan : MoveScan μ) : Option μ :=
  chooseMove key scan.bestAspiration scan.bestMove

end MoveScan
