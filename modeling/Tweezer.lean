import Tweezer.LogRecycled
import Tweezer.LogTornTail
import Tweezer.BlockCursor
import Tweezer.MemTableCorrect
import Tweezer.LogFragmentTail
import Tweezer.ManifestReaders
import Tweezer.ChangeFeed
import Tweezer.RangeTombstone
import Tweezer.MemTableRanges
import Tweezer.MemTableRangeDelete
import Tweezer.MemTableIntegrity
import Tweezer.BlockFetcher
import Tweezer.PlainBlock
import Tweezer.RangeDelBlock
import Tweezer.LabelledMemory
import Tweezer.UntrustedTrace
import Tweezer.LogAuthenticity
import Tweezer.BlockAuthenticity
import Tweezer.PlainBlockLayout
import Tweezer.IndexBlock
import Tweezer.IndexPosition
import Tweezer.IndexSeek
import Tweezer.TableIndex
import Tweezer.BlockSubstitution
import Tweezer.VersionEdit
import Tweezer.VersionEditDecode
import Tweezer.VersionEditRoundTrip
import Tweezer.VersionEditCodec
import Tweezer.VersionEditSecrets
import Tweezer.KeyList
import Tweezer.GlobalSeqno
import Tweezer.BlockReads
import Tweezer.MetaBlockReaders
import Tweezer.BlockEvidence
import Tweezer.VerifyChecksum
import Tweezer.IngestedKeys
import Tweezer.Repair
import Tweezer.PointLookup
import Tweezer.TableLookup
import Tweezer.MultiGet
import Tweezer.MultiGetAgrees
import Tweezer.BlockOpening
import Tweezer.IndexCursor
import Tweezer.Holdings
import Tweezer.TrustedArena
import Tweezer.MemTableNodes
import Tweezer.LogTailing
import Tweezer.OwnedBuffer
import Tweezer.PinnedValues
import Tweezer.InplaceUpdate
import Tweezer.CacheOnlyGet
import Tweezer.LogFailures
import Tweezer.LogAccepted
import Tweezer.BlockPrefetcher
import Tweezer.TableIterator
import Tweezer.Chunks
import Tweezer.TableIteratorBlocks
import Tweezer.TableCursor
import Tweezer.TableRefinement
import Tweezer.TableRuns
import Tweezer.SeqnoBounds
import Tweezer.InterleavedArena
import Tweezer.FragmentedTombstones
import Tweezer.LRUCacheShard
import Tweezer.LRUList
import Tweezer.LRUCacheBooks
import Tweezer.LRUCacheSteps
import Tweezer.LRUCacheRuns
import Tweezer.MergeHelper
import Tweezer.MergeUntil
import Tweezer.CompactionIterator
import Tweezer.CompactionReads
import Tweezer.CompactionSteps
import Tweezer.CompactionTurns
import Tweezer.CompactionRuns
import Tweezer.CompactionZero
import Tweezer.ObsoleteFiles
import Tweezer.ObsoleteFileSteps
import Tweezer.ObsoleteFileSafety
import Tweezer.ObsoleteFileKeys
import Tweezer.ObsoleteFileRuns
import Tweezer.InlineSkipList
import Tweezer.SkipListInserts
import Tweezer.SkipListSteps
import Tweezer.SkipListRuns
import Tweezer.SkipListSafety
import Tweezer.SkipListContents
import Tweezer.SkipListLinearized
import Tweezer.SkipListProgress
import Tweezer.SkipListTable
import Tweezer.LogReplay
import Tweezer.ParallelInserts
import Tweezer.WriteRuns
import Tweezer.LogRecovery
import Tweezer.WriteDurability
import Tweezer.WriteRecovery
