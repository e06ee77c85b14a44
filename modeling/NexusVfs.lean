import NexusVfs.Words
import NexusVfs.Text
import NexusVfs.Table
import NexusVfs.Runs
import NexusVfs.LockState
import NexusVfs.Command
import NexusVfs.Streams
import NexusVfs.ConditionalMetadata
import NexusVfs.ProtectedMetadata
import NexusVfs.RecordGuard
import NexusVfs.MetadataRename
import NexusVfs.ExtractVersion
import NexusVfs.StateMachine
import NexusVfs.Refusal
import NexusVfs.StreamIsolation
import NexusVfs.Effects
import NexusVfs.StreamHistory
import NexusVfs.Revisions
import NexusVfs.Retirement
import NexusVfs.Alike
import NexusVfs.SnapshotRoundTrip
import NexusVfs.RaftStorage
import NexusVfs.LockReplay
import NexusVfs.Cumulative
import NexusVfs.EcWrites
import NexusVfs.ReplicationLog
import NexusVfs.EcReplication
import NexusVfs.Lww
import NexusVfs.AntiEntropy
import NexusVfs.ByteRing
import NexusVfs.PipeRing
import NexusVfs.PipeRefinement
import NexusVfs.PipeFifo
import NexusVfs.WeakMemory
import NexusVfs.PipeConcurrent
import NexusVfs.PipeInterleavings
import NexusVfs.PipeLossless
import NexusVfs.DepthSearch
import NexusVfs.Rebac
import NexusVfs.RebacRules
import NexusVfs.RebacProvider
import NexusVfs.GraphCache
import NexusVfs.Json
import NexusVfs.CasEngine
import NexusVfs.CasWrites
import NexusVfs.CasManifest
import NexusVfs.CasRoundTrip
import NexusVfs.CasDelete
import NexusVfs.EcRestart
import NexusVfs.EcFork
import NexusVfs.IoLocks
import NexusVfs.IoLocksExact
import NexusVfs.AgentIncarnations
import NexusVfs.Hooks
import NexusVfs.Mailbox
import NexusVfs.RecordIo
import NexusVfs.ConditionalContent
import NexusVfs.ContentRegister
import NexusVfs.RevisionFence
import NexusVfs.LockHierarchy
import NexusVfs.StorageCrash
import NexusVfs.AuthKeys
import NexusVfs.KeyRevocation
import NexusVfs.GenerationCache
import NexusVfs.ZoneMetaCache
import NexusVfs.RetentionGc
import NexusVfs.LinkLedger
import NexusVfs.ZoneManager
import NexusVfs.LinkCounts
import NexusVfs.TopologyLinks
import NexusVfs.ShareLinks
import NexusVfs.LinkRuns
import NexusVfs.LinkConfined
import NexusVfs.LocalConnector
import NexusVfs.LockAdmission
import NexusVfs.CounterRuns
import NexusVfs.EcWatermark
import NexusVfs.MountPaths
import NexusVfs.ScanSafety
import NexusVfs.VersionSchema
import NexusVfs.Relocation
import NexusVfs.Pagination
import NexusVfs.SegmentBlob
import NexusVfs.LocalMetaStore
import NexusVfs.CasRange
import NexusVfs.IoLockWaits
import NexusVfs.Routing
import NexusVfs.ServiceHooks
import NexusVfs.Session
import NexusVfs.Recovery
