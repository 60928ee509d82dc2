import LittleFs.Lib.BitField
import LittleFs.Lib.Bitmap
import LittleFs.Lib.Run
import LittleFs.Lib.KeyedLog
import LittleFs.Lib.ZeroFill
import LittleFs.Lib.SortedEntries
import LittleFs.Lib.ByteImage
import LittleFs.Lib.Segments
import LittleFs.Tag
import LittleFs.GlobalState
import LittleFs.Allocator
import LittleFs.AllocatorRun
import LittleFs.AllocatorBounds
import LittleFs.AllocatorFixed
import LittleFs.AllocatorGrow
import LittleFs.AllocatorSpace
import LittleFs.Traverse
import LittleFs.TraverseFilter
import LittleFs.TraverseScan
import LittleFs.Compaction
import LittleFs.Fetch
import LittleFs.ParentScan
import LittleFs.DirGet
import LittleFs.DirFind
import LittleFs.PendingMove
import LittleFs.Relocate
import LittleFs.OpenFiles
import LittleFs.DirTree
import LittleFs.RenameFailure
import LittleFs.RenameTree
import LittleFs.RenameAtomic
import LittleFs.PathFind
import LittleFs.BlockScan
import LittleFs.VfsFile
import LittleFs.VfsCache
import LittleFs.VfsRead
import LittleFs.VfsTruncate
import LittleFs.VfsAppend
import LittleFs.CtzIndex
import LittleFs.CtzList
import LittleFs.CtzExtend
import LittleFs.CommitWrite
import LittleFs.CommitFetch
import LittleFs.AppendFetch
import LittleFs.TornCommit
import LittleFs.Lib.ListCursor
import LittleFs.DirRead
import LittleFs.DirIteration
import LittleFs.CommitCache
import LittleFs.FailedCommit
import LittleFs.DirSplit
import LittleFs.CompactFit
import LittleFs.RawDevice
import LittleFs.ReadCache
import LittleFs.VfsFlush
import LittleFs.VfsAccess
import LittleFs.FsGrow
import LittleFs.FileTruncate
import LittleFs.Lib.PartialWalk
import LittleFs.Mount
import LittleFs.LookupEnds
import LittleFs.CommitPadding
import LittleFs.TagChain
import LittleFs.ErasedSpace
import LittleFs.Lib.ByteMask
import LittleFs.CryptoDevice
import LittleFs.Lib.AlternatingPair
import LittleFs.MetadataWear
import LittleFs.Lib.LinkedList
import LittleFs.MetadataList
import LittleFs.Lib.FaultyScan
import LittleFs.DirWalk
import LittleFs.VfsListing
import LittleFs.DirSeek
import LittleFs.OrphanCount
import LittleFs.OrphanBalance
import LittleFs.OrphanRun
import LittleFs.Lib.Crc
import LittleFs.Checksum
import LittleFs.Lib.Pieces
import LittleFs.BufferedWrite
import LittleFs.Lib.FrameStack
import LittleFs.TraverseStack
import LittleFs.TraverseBound
import LittleFs.TraverseTags
import LittleFs.TraverseRun
import LittleFs.FileRead
import LittleFs.Lib.StateLogic
import LittleFs.FileIo
import LittleFs.CopyOnWrite
import LittleFs.HandleRun
import LittleFs.TruncateRun
import LittleFs.FileBuffer
import LittleFs.FileChain
import LittleFs.FileWrite
import LittleFs.FileContent
import LittleFs.FileSession
import LittleFs.FileSync
import LittleFs.VfsDevice
