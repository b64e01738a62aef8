import BiosKernel.Disk.Ahci
import BiosKernel.Disk.Window
import BiosKernel.Ext2.BlockTree
import BiosKernel.Ext2.EntryWalk
import BiosKernel.Ext2.Holes
import BiosKernel.Ext2.InodeTable
import BiosKernel.Ext2.Listing
import BiosKernel.Ext2.Resolve
import BiosKernel.File.Reassembly
import BiosKernel.File.StoredPath
import BiosKernel.Heap.Bounds
import BiosKernel.Heap.Steps
import BiosKernel.Interrupt.PicLines
import BiosKernel.Interrupt.Preemption
import BiosKernel.Keyboard.EditedLine
import BiosKernel.Keyboard.Fifo
import BiosKernel.Keyboard.ScanCodes
import BiosKernel.Keyboard.WaitOrder
import BiosKernel.Libc.Formatted
import BiosKernel.Libc.Rtc
import BiosKernel.Libc.Sscanf
import BiosKernel.Libc.UnixTime
import BiosKernel.Libc.UnsignedText
import BiosKernel.Net.ArpReply
import BiosKernel.Net.Frame
import BiosKernel.Net.Dns
import BiosKernel.Net.Drain
import BiosKernel.Net.SendNesting
import BiosKernel.Paging.HardwareMem
import BiosKernel.Paging.Interrupts
import BiosKernel.Paging.Ownership
import BiosKernel.Paging.Window
import BiosKernel.Pci.Completeness
import BiosKernel.Process.Bookkeeping
import BiosKernel.Process.ElfLeaks
import BiosKernel.Process.ElfLoad
import BiosKernel.Process.FrameSafety
import BiosKernel.Process.MemSlots
import BiosKernel.Process.Pids
import BiosKernel.Process.Stall
import BiosKernel.Shell.Cursor
import BiosKernel.Shell.Leaks
import BiosKernel.Shell.Acceptance
import BiosKernel.Syscall.Handler
import BiosKernel.Terminal.Tail
import BiosKernel.Vfs.AbsolutePath
import BiosKernel.Vfs.Agreement
import BiosKernel.Vfs.Mkdir
import BiosKernel.Vfs.QueryLeaks
import BiosKernel.Vfs.WalkReads
