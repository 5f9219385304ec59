import LinuxKernel.RecordLockByteMap
import LinuxKernel.KmallocRun
import LinuxKernel.IpFragmentQueue
import LinuxKernel.PageAllocator
import LinuxKernel.SemaphoreTotals
import LinuxKernel.SemaphoreWakeup
import LinuxKernel.IpcKeyUnique
import LinuxKernel.MessageCapacity
import LinuxKernel.SharedMemoryRun
import LinuxKernel.TimerRefinement
import LinuxKernel.PipeWrites
import LinuxKernel.InodeRun
import LinuxKernel.Ext2BlockRun
import LinuxKernel.Ext2Rename
import LinuxKernel.Ext2Cache
import LinuxKernel.ProcessTree
import LinuxKernel.ProcessStatus
import LinuxKernel.FatRename
import LinuxKernel.RecordLockQuery
import LinuxKernel.RecordLockAtomic
import LinuxKernel.SessionGroups
import LinuxKernel.UnixSocketStream
import LinuxKernel.ArpRun
import LinuxKernel.SkbAccounting
import LinuxKernel.BlockRequestPlug
import LinuxKernel.TtyRun
import LinuxKernel.SlhcRoundTrip
import LinuxKernel.SemaphoreIndex
import LinuxKernel.MessageSelection
import LinuxKernel.ShmSwapRun
import LinuxKernel.ShmAttachRanges
import LinuxKernel.SwaponErrors
import LinuxKernel.BufferSync
import LinuxKernel.ForkCopyAtomic
import LinuxKernel.BreadPage
import LinuxKernel.IpFragmentProgress
import LinuxKernel.RouteAdd
import LinuxKernel.InetChecksum
import LinuxKernel.TcpSortSend
import LinuxKernel.TcpFin
import LinuxKernel.TcpOptions
import LinuxKernel.SkbLists
import LinuxKernel.TcpReadable
import LinuxKernel.TcpReceivedSpace
import LinuxKernel.DosTime
import LinuxKernel.MsdosText
import LinuxKernel.Ext2Dirty
import LinuxKernel.FatWalk
import LinuxKernel.Ext2TruncateExact
import LinuxKernel.Ext2DirMap
import LinuxKernel.Ext2Scan
import LinuxKernel.ShmSignature
import LinuxKernel.TtyWedge
import LinuxKernel.Select
import LinuxKernel.TtyOutput
import LinuxKernel.Credentials
import LinuxKernel.PhaseLock
import LinuxKernel.Scheduler
