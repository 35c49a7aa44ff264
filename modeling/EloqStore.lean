import EloqStore.Storage.MappingCopy
import EloqStore.Partition.RangeMaxima
import EloqStore.Partition.Drop
import EloqStore.Gc.CollectorSafety
import EloqStore.Manifest.Truncation
import EloqStore.Partition.BranchCleanup
import EloqStore.Partition.IsolationRuns
import EloqStore.Partition.PageOwnership
import EloqStore.Partition.StoredValues
import EloqStore.Partition.PageReadRuns
import EloqStore.Partition.AbortedCompaction
import EloqStore.Partition.SnapshotReads
import EloqStore.Shard.AutoReopen
import EloqStore.Shard.GlobalRequests
import EloqStore.Root.SnapshotRegistry
import EloqStore.Standby.RsyncPartition
import EloqStore.Root.RootMetaMgr
import EloqStore.Root.InstallSnapshot
import EloqStore.Cloud.BufferPool
import EloqStore.Cloud.DescriptorSlots
import EloqStore.Cloud.CommitUploads
import EloqStore.Memory.LargeValueReads
import EloqStore.Memory.RegisteredMemory
import EloqStore.Page.LargeValueContent
import EloqStore.Cloud.NameRoundTrip
import EloqStore.Storage.ConfiguredSizes
import EloqStore.Storage.BatchReads
import EloqStore.Page.Varints
import EloqStore.Page.Separator
import EloqStore.Storage.RecycledChunks
import EloqStore.Storage.StorePathLut
import EloqStore.Standby.PrepareManifest
