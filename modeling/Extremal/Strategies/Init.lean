import Extremal.Strategies.Session

-- The numbers are 32-bit ones. A product or a sum that is too large for them has no result.

-- The loop of `is_prime`, which tries the divisors `i` and `i + 2` for every sixth `i`.
def isPrimeFrom? (n i : Nat) : Option Bool :=
  if i * i < UInt32.size then
    if i * i ≤ n then
      if n % i = 0 ∨ n % (i + 2) = 0 then some false
      else isPrimeFrom? n (i + 6)
    else some true
  else none
termination_by UInt32.size - i
decreasing_by
  have := Nat.le_mul_self i
  omega

def isPrime? (n : Nat) : Option Bool :=
  if n < 2 then some false
  else if n < 4 then some true
  else if n % 2 = 0 ∨ n % 3 = 0 then some false
  else isPrimeFrom? n 5

-- The loop that searches for the modulus of the Paley graph.
def paleyPrime? (p : Nat) : Option Nat :=
  if p < UInt32.size then
    if p % 4 = 1 then
      match isPrime? p with
      | none       => none
      | some true  => some p
      | some false => paleyPrime? (p + 1)
    else paleyPrime? (p + 1)
  else none
termination_by UInt32.size - p

-- Marks the squares of `1, ..., p - 1`.
def quadraticResidues (p : Nat) : List Bool :=
  (List.range' 1 (p - 1)).foldl (fun qr x => qr.set (x * x % p) true) (List.replicate p false)

def paleyGraph? (n : Nat) : Option AdjacencyMatrix := do
  let p ← paleyPrime? (max n 5)
  let qr := quadraticResidues p
  let join (g : AdjacencyMatrix) (ij : Nat × Nat) :=
    let diff := ((ij.1 - ij.2 : Int) % p).toNat
    if qr.getD diff false then g.setEdge ij.1 ij.2 true else g
  return (pairs n).foldl join (.new n)

def randomGraph (n : Nat) (session : Session) : AdjacencyMatrix × Session :=
  let draw (gs : AdjacencyMatrix × Session) (p : Nat × Nat) :=
    let (edge, session) := gs.2.genBool
    (if edge then gs.1.setEdge p.1 p.2 true else gs.1, session)
  (pairs n).foldl draw (.new n, session)

-- The graph that a search starts from.
def seedGraph (job : SearchJob) (session : Session) : AdjacencyMatrix × Session :=
  match job.initGraph with
  | some graph => (graph, session)
  | none       => randomGraph job.n session

-- The pair of one of the flips. `rng` yields the numbers that the vertices are drawn from.
def perturbPair (n : Nat) (rng : Nat → Nat) (flip : Nat) : Nat × Nat :=
  (rng (2 * flip) % n, rng (2 * flip + 1) % n)

-- A vertex together with itself is skipped.
def perturbFlip (n : Nat) (rng : Nat → Nat) (graph : AdjacencyMatrix) (flip : Nat) : AdjacencyMatrix :=
  let (i, j) := perturbPair n rng flip
  if i ≠ j then graph.setEdge i j !(graph.edge i j) else graph

-- There is no result if there is no vertex to draw.
def perturb? (graph : AdjacencyMatrix) (noiseFlips : Nat) (rng : Nat → Nat) : Option AdjacencyMatrix :=
  if noiseFlips > 0 ∧ graph.n = 0 then none
  else some <| (List.range noiseFlips).foldl (perturbFlip graph.n rng) graph
