import SwordFS.Metadata.Properties.AclInvariant
import SwordFS.Metadata.Properties.ReclaimExclusion
import SwordFS.Metadata.Properties.LockExclusion
import SwordFS.Metadata.Properties.LockFence
import SwordFS.Metadata.Properties.OwnerLeaseSafety
import SwordFS.Vfs.Properties.SizeCommitLate
import SwordFS.Vfs.Properties.SizeCommitOutcome
import SwordFS.Vfs.Properties.CowRetry
import SwordFS.Vfs.Properties.SliceRetry
import SwordFS.Vfs.Properties.AttachRun
import SwordFS.Vfs.Properties.CloseCoverage
import SwordFS.Vfs.Properties.FlagRevocation
import SwordFS.Vfs.Properties.VisibleSize
import SwordFS.Metadata.Properties.ChunkSnapshot
import SwordFS.Metadata.Properties.MappingScan
import SwordFS.Vfs.Properties.DirPagingPlus
import SwordFS.Fuse.Properties.LockHints
import SwordFS.Fuse.Properties.LockRetry
import SwordFS.Chunk.Properties.WindowPreparation
import SwordFS.Metadata.Properties.MaintenanceScan
import SwordFS.Chunk.Properties.CowBoundary
import SwordFS.Chunk.Properties.DirtyAccounting
import SwordFS.Metadata.Properties.SetAttrAgreement
import SwordFS.Vfs.Properties.FileRange
import SwordFS.Chunk.Properties.WriteBufIsolation
import SwordFS.Utils.Properties.RuntimeDrain
import SwordFS.Vfs.WorkerLoop
import SwordFS.Metadata.RecordCodec
import SwordFS.Metadata.Properties.TxnSerial
