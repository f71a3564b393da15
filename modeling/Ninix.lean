import Ninix.Arch.Start
import Ninix.Arch.Switch
import Ninix.Arch.Trap
import Ninix.Driver.Clock
import Ninix.Driver.Console
import Ninix.Driver.Disk
import Ninix.Driver.Erasing
import Ninix.Driver.KeyCodes
import Ninix.Driver.Keyboard
import Ninix.Driver.Printf
import Ninix.Driver.Terminal
import Ninix.Ext2.Backups
import Ninix.Ext2.BitmapTag
import Ninix.Ext2.BlockAllocation
import Ninix.Ext2.BlockCount
import Ninix.Ext2.BlockMap
import Ninix.Ext2.Creation
import Ninix.Ext2.Descriptor
import Ninix.Ext2.Directory
import Ninix.Ext2.DirectoryMap
import Ninix.Ext2.DirectoryScan
import Ninix.Ext2.FileGrowth
import Ninix.Ext2.GroupFull
import Ninix.Ext2.InodeAllocation
import Ninix.Ext2.InodeTable
import Ninix.Ext2.Location
import Ninix.Ext2.Metadata
import Ninix.Fat32.Allocation
import Ninix.Fat32.Chain
import Ninix.Fat32.ChainWalk
import Ninix.Fat32.Deletion
import Ninix.Fat32.Directory
import Ninix.Fat32.Direntry
import Ninix.Fat32.Emptiness
import Ninix.Fat32.Filling
import Ninix.Fat32.FreeCount
import Ninix.Fat32.FreeSearch
import Ninix.Fat32.Growth
import Ninix.Fat32.Listing
import Ninix.Fat32.Mirror
import Ninix.Fat32.Ownership
import Ninix.Fat32.ParseSafety
import Ninix.Fat32.Readdir
import Ninix.Fat32.Registration
import Ninix.Fat32.RoundTrip
import Ninix.Fat32.SlotIndex
import Ninix.Fat32.Table
import Ninix.Library.Bitmap
import Ninix.Library.ByteBuffer
import Ninix.Library.ByteMap
import Ninix.Library.Catalog
import Ninix.Library.Counting
import Ninix.Library.CyclicScan
import Ninix.Library.HeldCopy
import Ninix.Library.IndexLevels
import Ninix.Library.IndexTree
import Ninix.Library.LinkedChain
import Ninix.Library.ListHead
import Ninix.Library.ListRing
import Ninix.Library.Mips
import Ninix.Library.Printout
import Ninix.Library.Ranking
import Ninix.Library.Reachability
import Ninix.Library.RecordScan
import Ninix.Library.RunningTerm
import Ninix.Library.Scan
import Ninix.Library.Simulation
import Ninix.Library.Tiling
import Ninix.Library.Tokens
import Ninix.Library.WordMemory
import Ninix.ListHeads
import Ninix.Memory.BootAlignment
import Ninix.Memory.BootSearch
import Ninix.Memory.Bootmm
import Ninix.Memory.Buddy
import Ninix.Memory.BuddyFree
import Ninix.Memory.BuddySplit
import Ninix.Memory.Kmalloc
import Ninix.Memory.MemoryInfos
import Ninix.Memory.PageTable
import Ninix.Memory.Slab
import Ninix.Memory.SlabAccounts
import Ninix.Memory.SlabPages
import Ninix.Process.Accounting
import Ninix.Process.ClockShift
import Ninix.Process.Context
import Ninix.Process.Fork
import Ninix.Process.ForkSlices
import Ninix.Process.Kill
import Ninix.Process.NextTask
import Ninix.Process.Pid
import Ninix.Process.PrioArrays
import Ninix.Process.Priority
import Ninix.Process.Progress
import Ninix.Process.RunQueues
import Ninix.Process.Scheduler
import Ninix.Process.Selection
import Ninix.Process.SleepAverage
import Ninix.Process.TimeSlice
import Ninix.Usr.Shell
import Ninix.Usr.ShellSession
import Ninix.Vfs.CacheOrder
import Ninix.Vfs.Cat
import Ninix.Vfs.DentryCache
import Ninix.Vfs.Editor
import Ninix.Vfs.EditorFile
import Ninix.Vfs.EditorText
import Ninix.Vfs.EditorWindow
import Ninix.Vfs.FileStore
import Ninix.Vfs.Mount
import Ninix.Vfs.Name
import Ninix.Vfs.NameHash
import Ninix.Vfs.OpenNamei
import Ninix.Vfs.PageCache
import Ninix.Vfs.PageContent
import Ninix.Vfs.PageLists
import Ninix.Vfs.PageRequests
import Ninix.Vfs.PartialRead
import Ninix.Vfs.PathWalk
import Ninix.Vfs.ReadWrite
import Ninix.Vfs.ShortWrite
import Ninix.Vfs.WholeFile
import Ninix.Vfs.WriteBack
