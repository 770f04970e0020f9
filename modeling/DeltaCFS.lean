import DeltaCFS.Proofs.WriteReplay
import DeltaCFS.Proofs.ConsumerPass
import DeltaCFS.Proofs.Librsync.Signature
import DeltaCFS.Proofs.Librsync.Checksum
import DeltaCFS.Proofs.Librsync.Search
import DeltaCFS.Proofs.Librsync.Patch
import DeltaCFS.Proofs.PendingWrites
import DeltaCFS.Proofs.CacheAgreement
import DeltaCFS.Proofs.DeltaBases
import DeltaCFS.Proofs.FailedCalls
import DeltaCFS.Proofs.BadBase
import DeltaCFS.Proofs.TruncateMessage
import DeltaCFS.Proofs.UndoWrites
import DeltaCFS.Proofs.BlockChecksum
import DeltaCFS.Proofs.VersionContent
import DeltaCFS.Proofs.BasesHeld
import DeltaCFS.Proofs.NewfileMessage
import DeltaCFS.Proofs.QueueFifo
import DeltaCFS.Proofs.ReadVerification
import DeltaCFS.Proofs.ChecksumRange
import DeltaCFS.Proofs.RelationGraph
import DeltaCFS.Proofs.SlotReuse
import DeltaCFS.Proofs.StashedFiles
import DeltaCFS.Proofs.DeltaFiles
import DeltaCFS.Proofs.CrashFreedom
import DeltaCFS.Proofs.Convergence
import DeltaCFS.Proofs.Mirror
import DeltaCFS.Proofs.ServerFiles
import DeltaCFS.Proofs.Librsync.Pipeline
import DeltaCFS.Proofs.Librsync.AnyDelta
import DeltaCFS.Proofs.Librsync.RoundTrip
import DeltaCFS.Proofs.Librsync.DeltaSize
import DeltaCFS.Proofs.Accepted
import DeltaCFS.Proofs.PathVersions
import DeltaCFS.Proofs.WorkerThreads
import DeltaCFS.Proofs.DamagedReads
