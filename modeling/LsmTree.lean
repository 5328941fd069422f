import LsmTree.Merge.MergerOrder
import LsmTree.Manifest.Recovery
import LsmTree.BlobTree.Reads
import LsmTree.Compaction.SeqnoOrder
import LsmTree.Read.Replay
import LsmTree.Manifest.Persist
import LsmTree.Compaction.Zeroing
import LsmTree.Compaction.GcBalance
import LsmTree.Version.SnapshotHistory
import LsmTree.Compaction.HiddenSet
import LsmTree.Compaction.TightSpace
import LsmTree.Compaction.DropCallback
import LsmTree.Merge.Tournament
import LsmTree.Version.Precedence
import LsmTree.Compaction.MergeCalls
import LsmTree.Cache.ShardTallies
import LsmTree.Manifest.EditChain
import LsmTree.BlobTree.RewriteSelection
import LsmTree.Compaction.TombstoneGc
import LsmTree.Compaction.SubCompactions
import LsmTree.Table.PointRead
import LsmTree.Table.PartitionedFilter
import LsmTree.Table.ColumnarIngest
import LsmTree.Compaction.MergeOnRead
import LsmTree.Table.SeqnoScan
import LsmTree.DeletionPause
import LsmTree.Ecc.Secded
import LsmTree.Ecc.Shards
import LsmTree.Memtable.IntervalTree
import LsmTree.Memtable.Arena
import LsmTree.Read.RunReader
import LsmTree.Merge.Merger
