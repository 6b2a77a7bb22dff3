import LevelDb.Lib.Search
import LevelDb.Lib.Newest
import LevelDb.Lib.OrderedSet
import LevelDb.Lib.Run
import LevelDb.Format
import LevelDb.MemTable
import LevelDb.Version
import LevelDb.VersionEdit
import LevelDb.Compaction
import LevelDb.CompactionWork
import LevelDb.CompactionReads
import LevelDb.DbImpl
import LevelDb.LevelShape
import LevelDb.DbRuns
import LevelDb.Recency
import LevelDb.RunningCompaction
import LevelDb.Table
import LevelDb.Get
import LevelDb.DbIter
import LevelDb.GroupCommit
import LevelDb.ReadAtomicity
import LevelDb.Coding
import LevelDb.Crc32c
import LevelDb.LogWriter
import LevelDb.LogReader
import LevelDb.LogRoundTrip
import LevelDb.LogFailures
import LevelDb.CondVar
import LevelDb.Scheduler
import LevelDb.SchedulerSafety
import LevelDb.ManualRequest
import LevelDb.SchedulerTables
import LevelDb.FlushBarrier
import LevelDb.VersionEditCodec
import LevelDb.EditReplay
import LevelDb.FileName
import LevelDb.VersionSet
import LevelDb.ManifestReplay
import LevelDb.ManifestRuns
import LevelDb.LogPieces
import LevelDb.LogReuse
import LevelDb.WinEnv
import LevelDb.DbFiles
import LevelDb.DbProcess
import LevelDb.DbMoves
import LevelDb.RecoverableFiles
import LevelDb.RunningInvariant
import LevelDb.OpeningInvariant
import LevelDb.StoreSafety
import LevelDb.AgeOrder
import LevelDb.Lib.RefCount
import LevelDb.Lib.Ring
import LevelDb.VersionRefs
import LevelDb.RefBalance
import LevelDb.HandleTable
import LevelDb.LruCache
import LevelDb.LruInvariant
import LevelDb.LruRefinement
import LevelDb.Lib.Layers
import LevelDb.SkipList
import LevelDb.SkipListInserts
import LevelDb.ManifestFailures
import LevelDb.ManualRounds
import LevelDb.SeekCompaction
import LevelDb.MergingIterator
import LevelDb.Lib.Separated
import LevelDb.TwoLevelIterator
import LevelDb.EditDecoding
import LevelDb.Lib.CheckedOrder
import LevelDb.ManifestKeys
import LevelDb.BatchContents
import LevelDb.Sst.Block
import LevelDb.Sst.BlockSafety
import LevelDb.Sst.BlockLayout
import LevelDb.Sst.BlockRoundTrip
import LevelDb.Sst.Compression
import LevelDb.CacheValues
import LevelDb.Sst.FilterBlock
import LevelDb.Sst.Table
import LevelDb.Hash
import LevelDb.Sst.BlockCache
import LevelDb.Sst.CacheTransparency
import LevelDb.Sst.FilterLayout
import LevelDb.Sst.TableBuilder
import LevelDb.Sst.TableLayout
import LevelDb.Sst.FinishedTable
import LevelDb.Sst.StoredBlocks
import LevelDb.DestroyDb
import LevelDb.MissingTables
import LevelDb.PartialBatches
import LevelDb.WinFile
import LevelDb.Lib.Loop
import LevelDb.ZlibCompressor
import LevelDb.ZlibStreams
import LevelDb.ZlibStored
import LevelDb.ZlibRoundTrip
import LevelDb.Sst.ZlibBlocks
import LevelDb.LogOffsets
import LevelDb.Lib.Disk
import LevelDb.LogStarts
import LevelDb.NewDb
import LevelDb.Repair
import LevelDb.Sst.BlockCursors
import LevelDb.OverlapSearch
import LevelDb.Sst.BloomFilter
import LevelDb.Properties
import LevelDb.ZstdCompressor
import LevelDb.FileState
import LevelDb.MemEnv
import LevelDb.Sst.FilterRuns
import LevelDb.Sst.OpenedTable
import LevelDb.Sst.BuiltTable
import LevelDb.ByteKeys
import LevelDb.ApproximateSizes
import LevelDb.Sst.TableRoundTrip
import LevelDb.Sst.FilteredReads
import LevelDb.AcceleratedCrc
import LevelDb.Varints
import LevelDb.EncodedKeys
import LevelDb.InitOnce
import LevelDb.SuccessiveEdits
import LevelDb.TrackedManifest
import LevelDb.TrackedOpening
import LevelDb.ManifestStops
import LevelDb.DurableFiles
import LevelDb.DurableOpening
import LevelDb.Durability
import LevelDb.Lib.Served
import LevelDb.LayeredRuns
import LevelDb.KeptReads
import LevelDb.MapRefinement
