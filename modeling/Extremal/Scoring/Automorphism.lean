import Extremal.Graph.Cid

variable (lib : Crates)

-- The edges that are added to nauty's dense graph.
def denseGraph (adj : AdjacencyMatrix) : List (Nat × Nat) :=
  (pairs adj.n).filter fun p => adj.edge p.1 p.2

-- `lab[i]` is the vertex at position `i` of the canonical labelling.
def runNauty (adj : AdjacencyMatrix) : List Nat × Float :=
  if adj.n = 0 then ([], 1.0)
  else lib.densenauty adj.n (denseGraph adj)

def automorphismGroupOrder (adj : AdjacencyMatrix) : Float :=
  (runNauty lib adj).2

def invertLab (n : Nat) (lab : List Nat) : List Nat :=
  lab.zipIdx.foldl (fun invLab p => invLab.set p.1 p.2) (List.replicate n 0)

def canonicalForm (adj : AdjacencyMatrix) : AdjacencyMatrix × Float :=
  if adj.n = 0 then (.new 0, 1.0)
  else
    let (lab, autOrder) := runNauty lib adj
    (adj.permuteVertices (invertLab adj.n lab), autOrder)
