import Aegis.OrderedTable
import Aegis.GuardedRun
import Aegis.Codec
import Aegis.Ring
import Aegis.Spill
import Aegis.Json
import Aegis.Event
import Aegis.EventCodec
import Aegis.Wire
import Aegis.EventRoundTrip
import Aegis.TryFlush
import Aegis.Forwarder
import Aegis.ForwarderConservation
import Aegis.InOrder
import Aegis.ForwarderOrder
import Aegis.ForwarderPipelining
import Aegis.FlushLoss
import Aegis.DedupWindow
import Aegis.Ingest
import Aegis.AckPersistence
import Aegis.Scalar
import Aegis.Scoring
import Aegis.DetectionModel
import Aegis.AgentDetect
import Aegis.ServerPipeline
import Aegis.SpillAccounting
import Aegis.SpillLife
import Aegis.ServerTraffic
import Aegis.Attribution
import Aegis.EndpointAlerts
import Aegis.WireEvidence
import Aegis.EventIndex
import Aegis.EventLog
import Aegis.Enrollment
import Aegis.TokenLife
import Aegis.ChunkReader
import Aegis.Framing
import Aegis.Bus
import Aegis.BusOrder
import Aegis.BusAccounting
import Aegis.BusDeadlock
import Aegis.GracefulStop
import Aegis.SessionAuth
import Aegis.AcceptanceIsolation
import Aegis.Backoff
import Aegis.CommandRouter
import Aegis.EventRetention
import Aegis.Magnitudes
import Aegis.NewestFirst
import Aegis.SequentialReplay
import Aegis.SubjectKeys
import Aegis.TemporalEvidence
import Aegis.AgentIsolation
import Aegis.RiskRelease
import Aegis.AlertLog
import Aegis.CommandStats
import Aegis.ContentFreeness
import Aegis.LastSeen
import Aegis.AssessmentBounds
import Aegis.BatchAssembly
import Aegis.FileEffects
import Aegis.IdentityFiles
import Aegis.RiskEviction
import Aegis.AuthBytes
import Aegis.FieldSanitising
import Aegis.FirstOffer
import Aegis.HostBuilder
import Aegis.ProcessScan
import Aegis.RankSum
import Aegis.RocAuc
import Aegis.Rounding
import Aegis.SampleHistory
import Aegis.TamperManifest
import Aegis.EscalationLife
import Aegis.FeatureRanges
import Aegis.LockableFiles
import Aegis.TamperInstall
import Aegis.EvasionCost
import Aegis.CheckedDecimal
import Aegis.ProcStat
import Aegis.ForwarderDrain
import Aegis.Dashboard
import Aegis.TamperWatch
import Aegis.PinnedEnroll
import Aegis.TtyRuntime
import Aegis.CertBootstrap
import Aegis.RealArithmetic
import Aegis.TempoInvariance
import Aegis.LogisticLoss
import Aegis.Baseline
import Aegis.BaselineTraining
import Aegis.WordMixing
import Aegis.SynthRng
import Aegis.SynthSessions
import Aegis.EvaluationReport
