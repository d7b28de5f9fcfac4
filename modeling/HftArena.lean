import HftArena.Adversarial.CheatBook
import HftArena.Adversarial.Cheated
import HftArena.Adversarial.Volumes
import HftArena.Arena.Executed
import HftArena.Arena.Heeds
import HftArena.Arena.Streams
import HftArena.Arena.World
import HftArena.Engine.Agreement
import HftArena.Engine.Bounds
import HftArena.Engine.Cancellable
import HftArena.Engine.Cpp
import HftArena.Engine.Go
import HftArena.Engine.Idle
import HftArena.Engine.Index
import HftArena.Engine.Laws
import HftArena.Engine.Python
import HftArena.Engine.PythonBook
import HftArena.Engine.PythonLaws
import HftArena.Engine.PythonMatch
import HftArena.Engine.PythonTop
import HftArena.Engine.Rust
import HftArena.Fleet.Accepts
import HftArena.Fleet.Accounting
import HftArena.Fleet.Balance
import HftArena.Fleet.Barrier
import HftArena.Fleet.Bot
import HftArena.Fleet.Cancel
import HftArena.Fleet.Crew
import HftArena.Fleet.InFlight
import HftArena.Fleet.Ledger
import HftArena.Fleet.OrderIds
import HftArena.Fleet.Pacing
import HftArena.Fleet.Peers
import HftArena.Fleet.Probe
import HftArena.Fleet.RateTags
import HftArena.Fleet.Reporting
import HftArena.Fleet.RunDone
import HftArena.Fleet.RunLoad
import HftArena.Fleet.Serves
import HftArena.Fleet.Shares
import HftArena.Fleet.Starters
import HftArena.Fleet.Verdict
import HftArena.Fleet.Window
import HftArena.Lib.Dict
import HftArena.Lib.Covering
import HftArena.Lib.DistinctOn
import HftArena.Lib.Expiring
import HftArena.Lib.FlatJson
import HftArena.Lib.GroupBy
import HftArena.Lib.Loop
import HftArena.Lib.OrderStatistic
import HftArena.Lib.Packed
import HftArena.Lib.PubSub
import HftArena.Lib.Quantile
import HftArena.Lib.Run
import HftArena.Lib.Server
import HftArena.Lib.Session
import HftArena.Lib.SortedMap
import HftArena.Lib.StableSort
import HftArena.Lib.System
import HftArena.Lib.Tickets
import HftArena.Orchestrator.Admission
import HftArena.Orchestrator.Announced
import HftArena.Orchestrator.Cleanup
import HftArena.Orchestrator.Dashboard
import HftArena.Orchestrator.Lane
import HftArena.Orchestrator.Reports
import HftArena.Orchestrator.Serial
import HftArena.PriceTime.Arrival
import HftArena.PriceTime.Book
import HftArena.PriceTime.Bounds
import HftArena.PriceTime.Depth
import HftArena.PriceTime.Handles
import HftArena.PriceTime.Ladder
import HftArena.PriceTime.Laws
import HftArena.PriceTime.Levels
import HftArena.PriceTime.Reuse
import HftArena.PriceTime.Serve
import HftArena.PriceTime.Volume
import HftArena.Telemetry.Achieved
import HftArena.Telemetry.Archive
import HftArena.Telemetry.Board
import HftArena.Telemetry.Buckets
import HftArena.Telemetry.Consumer
import HftArena.Telemetry.Curve
import HftArena.Telemetry.Folding
import HftArena.Telemetry.Improvement
import HftArena.Telemetry.Leaderboard
import HftArena.Telemetry.Merged
import HftArena.Telemetry.Metrics
import HftArena.Telemetry.Peak
import HftArena.Telemetry.Percentiles
import HftArena.Telemetry.InRange
import HftArena.Telemetry.Pipeline
import HftArena.Telemetry.Priority
import HftArena.Telemetry.Quantiles
import HftArena.Telemetry.Rollup
import HftArena.Telemetry.Schedule
import HftArena.Telemetry.Score
import HftArena.Telemetry.Sound
import HftArena.Wire.Alike
import HftArena.Wire.Codec
import HftArena.Wire.Connection
import HftArena.Wire.Frame
import HftArena.Wire.Handlers
import HftArena.Wire.Interchange
import HftArena.Wire.JsonText
import HftArena.Wire.Orderly
import HftArena.Wire.PyConnection
import HftArena.Wire.PyHandle
import HftArena.Wire.Rejects
import HftArena.Wire.Served
import HftArena.Wire.Truthful
