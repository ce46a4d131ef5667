import Cob.Binary.AddressCache
import Cob.Binary.RoundTrip
import Cob.Binary.Untrusted
import Cob.Binary.Write
import Cob.CliArgs
import Cob.Executor.BuildLog
import Cob.Executor.Clean
import Cob.Executor.CleanBuild
import Cob.Executor.CommandRecord
import Cob.Executor.CompDB
import Cob.Executor.CycleCheck
import Cob.Executor.Deadlock
import Cob.Executor.DotGraph
import Cob.Executor.EmitCommands
import Cob.Executor.Estimates
import Cob.Executor.FailFast
import Cob.Executor.Freshness
import Cob.Executor.InputTimes
import Cob.Executor.KeepGoing
import Cob.Executor.ManifestTime
import Cob.Executor.Prediction
import Cob.Executor.ResponseFile
import Cob.Executor.StatCache
import Cob.Executor.Termination
import Cob.FlatMap.Map
import Cob.Grammar
import Cob.Graph.DepfileBounds
import Cob.Graph.DepfileInputs
import Cob.Graph.DepfileTarget
import Cob.Graph.Representation
import Cob.History.Commands
import Cob.History.Comparison
import Cob.History.Incremental
import Cob.History.Manifests
import Cob.History.Overrides
import Cob.History.SecondBuild
import Cob.Process.Exec
import Cob.Queue.Mpmc
import Cob.Queue.Liveness
import Cob.Queue.Sequential
import Cob.RapidHash
import Cob.Tools
