import LiteServer.Lib.StepSystem
import LiteServer.Lib.Checks
import LiteServer.Lib.IndexMap
import LiteServer.Lib.Kahn
import LiteServer.Lib.Layers
import LiteServer.Lib.Counting
import LiteServer.Lib.Channel
import LiteServer.Lib.LittleEndian
import LiteServer.Message
import LiteServer.Json
import LiteServer.Queue.Outlier
import LiteServer.Queue.Breaker
import LiteServer.Queue.PickWorker
import LiteServer.Queue.Dispatch
import LiteServer.Queue.PriorityChannel
import LiteServer.Queue.Drain
import LiteServer.Ensemble.Pipeline
import LiteServer.Ensemble.Types
import LiteServer.Ensemble.Refs
import LiteServer.Ensemble.Analysis
import LiteServer.Ensemble.Config
import LiteServer.Ensemble.Loaded
import LiteServer.Ensemble.Envelope
import LiteServer.Ensemble.Container
import LiteServer.Ensemble.Assemble
import LiteServer.Ensemble.Outputs
import LiteServer.Ensemble.Exec
import LiteServer.Ensemble.Entry
import LiteServer.Ensemble.Slices
import LiteServer.Ensemble.SharedEnvelope
import LiteServer.Ensemble.SinkEnvelope
import LiteServer.Ensemble.ContextKeys
import LiteServer.Ensemble.Schedule
import LiteServer.Ensemble.Chains
import LiteServer.Ensemble.Gates
import LiteServer.Ensemble.Dag
import LiteServer.Ensemble.Order
import LiteServer.Ensemble.Absence
import LiteServer.Ensemble.Edges
import LiteServer.Ensemble.InputModes
import LiteServer.Ensemble.References
import LiteServer.Transport.Wire
import LiteServer.Transport.Actor
import LiteServer.Transport.Correlation
import LiteServer.Lifecycle.Registry
import LiteServer.Lifecycle.Loads
import LiteServer.Lifecycle.LoadOwners
import LiteServer.Lifecycle.Stranded
import LiteServer.Lifecycle.StatusWrites
import LiteServer.Lifecycle.UnloadingFinal
import LiteServer.Lib.Separator
import LiteServer.Repo.Names
import LiteServer.Lifecycle.Sockets
import LiteServer.Lib.FileTree
import LiteServer.Repo.Tree
import LiteServer.Repo.Artifact
import LiteServer.Repo.Swap
import LiteServer.Repo.Scanner
import LiteServer.Repo.Retained
import LiteServer.Http.ConfigPatch
import LiteServer.Http.Headers
import LiteServer.Http.ClientIp
import LiteServer.Http.Origin
import LiteServer.Http.Access
import LiteServer.Http.CrossSite
import LiteServer.Lib.WeightedPick
import LiteServer.Http.Routes
import LiteServer.Lib.FirstBest
import LiteServer.Queue.Selection
import LiteServer.Queue.PriorityOrder
import LiteServer.Queue.Collector
import LiteServer.Worker.Routing
import LiteServer.Worker.Sequence
import LiteServer.Transport.Lpm
import LiteServer.Lifecycle.ModelEntry
import LiteServer.Lifecycle.Reload
import LiteServer.Lifecycle.Reconcile
import LiteServer.Lifecycle.Watcher
import LiteServer.Lifecycle.RegistryCalls
import LiteServer.Lifecycle.LoadCap
import LiteServer.Http.Redaction
import LiteServer.Lifecycle.Retire
import LiteServer.Http.Range
import LiteServer.Lib.Rounding
import LiteServer.Lib.BinaryFloat
import LiteServer.Http.HalfFloat
import LiteServer.Http.KServe
import LiteServer.Http.Download
import LiteServer.Lifecycle.Routing
import LiteServer.Lifecycle.Glob
import LiteServer.Http.MergePatch
import LiteServer.Http.Classification
import LiteServer.Http.Cors
import LiteServer.Http.Handshake
import LiteServer.Worker.Stderr
import LiteServer.WebUi.Lockout
import LiteServer.WebUi.Passwords
import LiteServer.Lib.Lookup
import LiteServer.Profile.QuickSearch
import LiteServer.Http.Admission
import LiteServer.Text
