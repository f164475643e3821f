import Hios.Lib.Run
import Hios.Lib.LinkedList
import Hios.Kernel.WaitQueue
import Hios.Fs.BufferHead
import Hios.BlkDrv.Request
import Hios.BlkDrv.Elevator
import Hios.BlkDrv.QueueShape
import Hios.Kernel.Machine
import Hios.Lib.RefCount
import Hios.Mm.Memory
import Hios.Kernel.Exit
import Hios.Mm.Frames
import Hios.Mm.FrameOps
import Hios.Mm.Faults
import Hios.Mm.Tables
import Hios.Kernel.Processes
import Hios.Kernel.System
import Hios.Kernel.CopyOnWrite
import Hios.Kernel.UserStores
import Hios.Kernel.Waitpid
import Hios.Lib.Outcome
import Hios.Fs.Inode
import Hios.Fs.InodeTable
import Hios.Fs.Namei
import Hios.Fs.Open
import Hios.Lib.RingBuffer
import Hios.ChrDrv.Tty
import Hios.Lib.LongMemory
import Hios.Kernel.Signal
import Hios.Kernel.Pids
import Hios.Kernel.Family
import Hios.Kernel.ProcessTable
import Hios.Mm.Accounting
import Hios.Kernel.ForkFails
import Hios.Lib.Ownership
import Hios.BlkDrv.HardDisk
import Hios.BlkDrv.Ownership
import Hios.Fs.Buffers
import Hios.Fs.Super
import Hios.Fs.SuperSizes
import Hios.Fs.ReadWrite
import Hios.Fs.References
import Hios.Fs.Balance
import Hios.Fs.ZoneTree
import Hios.Fs.Truncate
import Hios.Fs.Coherence
import Hios.Fs.InodeCalls
import Hios.Fs.PathWalk
import Hios.Fs.PathResolution
import Hios.Kernel.Schedule
import Hios.Kernel.SignalMasks
import Hios.Lib.ByteCopy
import Hios.Lib.TextLayout
import Hios.ChrDrv.Console
import Hios.Fs.FileTable
import Hios.Mm.PageAllocator
import Hios.BlkDrv.Controller
import Hios.BlkDrv.Transfer
import Hios.BlkDrv.Retry
import Hios.Fs.BlockBounds
import Hios.Fs.InodeLock
import Hios.Fs.OpenCalls
import Hios.Fs.OpenRefs
import Hios.Fs.FailedOpen
import Hios.ChrDrv.TtyRead
import Hios.ChrDrv.Backspace
import Hios.BlkDrv.DiskAddress
import Hios.BlkDrv.ErrorPath
import Hios.Fs.EmptyInode
import Hios.Fs.Mounts
import Hios.Fs.FileRead
import Hios.Fs.SysRead
import Hios.Fs.InodeSlots
import Hios.Fs.DirSearch
import Hios.Fs.InodeHolds
import Hios.Fs.UserRead
import Hios.Fs.ReadAccess
import Hios.BlkDrv.ReadsFirst
import Hios.BlkDrv.SlotWait
import Hios.Kernel.Scheduler
import Hios.Kernel.Alarm
import Hios.Kernel.VerifyArea
import Hios.Fs.SyncDev
import Hios.Fs.BmapCreate
import Hios.Fs.BufferInit
import Hios.ChrDrv.TtyWrite
import Hios.ChrDrv.Echo
import Hios.Fs.InodeStore
import Hios.ChrDrv.ScreenBackspace
import Hios.Kernel.Segments
import Hios.Kernel.Print
import Hios.ChrDrv.TtyTable
import Hios.Fs.BufferCalls
import Hios.Fs.Transparency
import Hios.Fs.CacheLevels
import Hios.Fs.CacheMachine
import Hios.Fs.CacheSteps
import Hios.Fs.MakeRequest
import Hios.Boot.Startup
import Hios.Kernel.BoundedWait
import Hios.Kernel.Switching
import Hios.BlkDrv.SlotDriver
