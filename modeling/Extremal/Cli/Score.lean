import Extremal.Scoring.Histogram
import Extremal.Types.GraphCid

-- What `score` prints for a graph.
structure ScoreReport where
  n          : Nat
  cid        : String
  histogram  : CliqueHistogram
  goodmanGap : UInt64
  edges      : Nat

namespace ScoreReport

def tierLine (tier : HistogramTier) : String :=
  let hi := max tier.red tier.blue
  let lo := min tier.red tier.blue
  s!"    k={tier.k}: red={tier.red}, blue={tier.blue} -> ({hi}, {lo})"

def lines (report : ScoreReport) : List String :=
  [s!"Graph scoring (n={report.n}):", s!"  CID:         {report.cid}", "  Histogram:"] ++
    report.histogram.tiers.map tierLine ++
    [s!"  Goodman gap: {report.goodmanGap}", s!"  Edges:       {report.edges}"]

end ScoreReport

-- The CID is that of the matrix as it was decoded.
def scoreReport (lib : Crates) (hex : Hex) (n : Nat) (graph6 : List UInt8) (maxK : Nat) : Except String ScoreReport :=
  match Graph6.decode graph6 with
  | .error e   => .error s!"{e}"
  | .ok matrix =>
    if matrix.n ≠ n then .error s!"graph6 decodes to n={matrix.n}, expected n={n}"
    else
      let histogram := CliqueHistogram.compute matrix maxK
      let (redTri, blueTri) := histogram.tier 3 |>.map (fun t => (t.red, t.blue)) |>.getD (0, 0)
      .ok {
        n
        cid        := computeCid lib matrix |>.toHex hex
        histogram
        goodmanGap := goodmanGap n redTri blueTri
        edges      := matrix.numEdges }

-- The command scores a graph without a server.
def scoreCommand (lib : Crates) (hex : Hex) (n : Nat) (graph6 : List UInt8) (maxK : Nat) :
    Except String (List String) := do
  let report ← scoreReport lib hex n graph6 maxK
  return report.lines
