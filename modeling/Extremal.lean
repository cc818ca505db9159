import Extremal.Lib.Lexicographic
import Extremal.Lib.BitMask
import Extremal.Lib.BoundedChannel
import Extremal.Lib.ChangeLog
import Extremal.Lib.CheckedSum
import Extremal.Lib.CliqueCount
import Extremal.Lib.Coalescing
import Extremal.Lib.Goodman
import Extremal.Lib.IntegerFloat
import Extremal.Lib.PackedBits
import Extremal.Lib.OrderedMap
import Extremal.Lib.Paley
import Extremal.Lib.Loop
import Extremal.Lib.Machine
import Extremal.Lib.Program
import Extremal.Lib.PositiveFloat
import Extremal.Lib.Record
import Extremal.Lib.Registry
import Extremal.Lib.Selection
import Extremal.Lib.SessionLock
import Extremal.Lib.Sorting
import Extremal.Lib.TrialDivision
import Extremal.Lib.Upsert
import Extremal.Graph.Adjacency
import Extremal.Graph.Graph6
import Extremal.Graph.Checked
import Extremal.Graph.Cid
import Extremal.Graph.Theorems.Adjacency
import Extremal.Graph.Theorems.Graph6
import Extremal.Graph.Theorems.RoundTrip
import Extremal.Graph.Theorems.EdgeFunction
import Extremal.Graph.Theorems.Padding
import Extremal.Types.Json
import Extremal.Types.GraphCid
import Extremal.Types.Identity
import Extremal.Types.Theorems.Hex
import Extremal.Types.Theorems.Identity
import Extremal.Scoring.Clique
import Extremal.Scoring.Automorphism
import Extremal.Scoring.Histogram
import Extremal.Scoring.Score
import Extremal.Scoring.Checked
import Extremal.Scoring.Theorems.Clique
import Extremal.Scoring.Theorems.Score
import Extremal.Scoring.Theorems.Automorphism
import Extremal.Scoring.Theorems.Nauty
import Extremal.Scoring.Theorems.Histogram
import Extremal.Scoring.Theorems.Guilty
import Extremal.Scoring.Theorems.Checked
import Extremal.Scoring.Theorems.Shifts
import Extremal.Scoring.Theorems.Complement
import Extremal.Scoring.Theorems.Fingerprint
import Extremal.Scoring.Theorems.Goodman
import Extremal.Store.Tables
import Extremal.Store.Leaderboard
import Extremal.Store.Concurrent
import Extremal.Store.AdvisoryLock
import Extremal.Store.Theorems.Tables
import Extremal.Store.Theorems.Leaderboard
import Extremal.Store.Theorems.Admission
import Extremal.Store.Theorems.Threshold
import Extremal.Store.Theorems.Answer
import Extremal.Store.Theorems.Concurrent
import Extremal.Store.Theorems.Serial
import Extremal.Store.Theorems.Versions
import Extremal.Server.Clock
import Extremal.Server.Error
import Extremal.Server.State
import Extremal.Server.Submit
import Extremal.Server.Verify
import Extremal.Server.Leaderboard
import Extremal.Server.Sequential
import Extremal.Server.Serve
import Extremal.Server.Identity
import Extremal.Server.Snapshot
import Extremal.Server.Theorems.Submit
import Extremal.Server.Theorems.AllOrNothing
import Extremal.Server.Theorems.Serve
import Extremal.Server.Theorems.Records
import Extremal.Server.Theorems.Graphs
import Extremal.Server.Theorems.Identity
import Extremal.Server.Theorems.Cache
import Extremal.Server.Theorems.Snapshot
import Extremal.Server.Theorems.Staleness
import Extremal.Cli.Score
import Extremal.Cli.Theorems.Score
import Extremal.Dashboard.Protocol
import Extremal.Dashboard.State
import Extremal.Dashboard.Server
import Extremal.Dashboard.Theorems.Server
import Extremal.Dashboard.Theorems.Registry
import Extremal.Dashboard.Theorems.Page
import Extremal.Dashboard.Theorems.Auth
import Extremal.Dashboard.Theorems.Delivery
import Extremal.Worker.Gate
import Extremal.Worker.Scoring
import Extremal.Worker.Config
import Extremal.Worker.Engine
import Extremal.Worker.Snapshot
import Extremal.Worker.Seed
import Extremal.Worker.Rounds
import Extremal.Worker.Api
import Extremal.Worker.Client
import Extremal.Worker.Sync
import Extremal.Worker.Telemetry
import Extremal.Worker.Dashboard
import Extremal.Worker.Theorems.Gate
import Extremal.Worker.Theorems.Scoring
import Extremal.Worker.Theorems.Engine
import Extremal.Worker.Theorems.Discoveries
import Extremal.Worker.Theorems.Api
import Extremal.Worker.Theorems.Best
import Extremal.Worker.Theorems.Stop
import Extremal.Worker.Theorems.Memory
import Extremal.Worker.Theorems.Sync
import Extremal.Worker.Theorems.Telemetry
import Extremal.Worker.Theorems.Accounting
import Extremal.Worker.Theorems.Seed
import Extremal.Worker.Theorems.Rounds
import Extremal.Worker.Theorems.Client
import Extremal.Worker.Theorems.Cap
import Extremal.Worker.Theorems.Dashboard
import Extremal.Server.Theorems.Provenance
import Extremal.Strategies.Mirrors
import Extremal.Strategies.Session
import Extremal.Strategies.Init
import Extremal.Strategies.Moves
import Extremal.Strategies.Polish
import Extremal.Strategies.Tabu
import Extremal.Strategies.Tree2
import Extremal.Strategies
import Extremal.Strategies.Carry
import Extremal.Strategies.Theorems.Mirrors
import Extremal.Strategies.Theorems.Session
import Extremal.Strategies.Theorems.Paley
import Extremal.Strategies.Theorems.Moves
import Extremal.Strategies.Theorems.Polish
import Extremal.Strategies.Theorems.Tabu
import Extremal.Strategies.Theorems.Tree2
import Extremal.Strategies.Theorems.Visited
import Extremal.Experiments.Annealing
import Extremal.Experiments.Theorems.Annealing
import Extremal.Strategies.Theorems.Search
import Extremal.Strategies.Theorems.Carry
import Extremal.Strategies.Theorems.Tenure
import Extremal.Strategies.Theorems.Truthful
import Extremal.Browser.Graph6
import Extremal.Browser.DashboardStore
import Extremal.Browser.Theorems.Graph6
import Extremal.Browser.Theorems.DashboardStore
import Extremal.Worker.Theorems.Config
import Extremal.Server.Theorems.Responses
import Extremal.Network
import Extremal.Network.Theorems.Network
