import Extremal.Scoring.Clique

-- A graph together with its complement and the neighbour masks of both, as the searches keep them.
structure Mirrors where
  graph    : AdjacencyMatrix
  comp     : AdjacencyMatrix
  adjNbrs  : NeighborSet
  compNbrs : NeighborSet
deriving DecidableEq

namespace Mirrors

def ofGraph (graph : AdjacencyMatrix) : Mirrors where
  graph    := graph
  comp     := graph.complement
  adjNbrs  := .fromAdj graph
  compNbrs := .fromAdj graph.complement

-- Flips the pair `u`, `v` in all four.
def flip (m : Mirrors) (u v : Nat) : Mirrors :=
  let cur := m.graph.edge u v
  { graph    := m.graph.setEdge u v !cur
    comp     := m.comp.setEdge u v cur
    adjNbrs  := m.adjNbrs.flipEdge u v
    compNbrs := m.compNbrs.flipEdge u v }

def red (m : Mirrors) (k n : Nat) : UInt64 :=
  countCliques m.adjNbrs k n

def blue (m : Mirrors) (ell n : Nat) : UInt64 :=
  countCliques m.compNbrs ell n

def delta (m : Mirrors) (k ell u v : Nat) : Int64 × Int64 :=
  violationDelta m.adjNbrs m.compNbrs k ell u v

end Mirrors

-- The position of the pair `u`, `v` in a tabu list.
def edgeIndex (u v n : Nat) : Nat :=
  let (u, v) := if u < v then (u, v) else (v, u)
  u * n - u * (u + 1) / 2 + (v - u - 1)

-- `count.max(0)`, cast to an unsigned number.
def clamp (count : Int64) : UInt64 :=
  (max count 0).toUInt64
