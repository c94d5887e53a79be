import Stuos.Disk.MassStorage
import Stuos.Disk.SectorDisk
import Stuos.Disk.Virtio
import Stuos.Elf.Acceptance
import Stuos.Elf.Arguments
import Stuos.Elf.Disk
import Stuos.Elf.Gaps
import Stuos.Elf.Headers
import Stuos.Elf.Image
import Stuos.Elf.Instantiate
import Stuos.Elf.Loader
import Stuos.Elf.Regions
import Stuos.Elf.Reservation
import Stuos.Elf.Room
import Stuos.Elf.Segments
import Stuos.Elf.Traces
import Stuos.Elf.Tracker
import Stuos.Fs.BootRecord
import Stuos.Fs.Cwd
import Stuos.Fs.Dev
import Stuos.Fs.DevBytes
import Stuos.Fs.Fat.Allocation
import Stuos.Fs.Fat.Chains
import Stuos.Fs.Fat.Copies
import Stuos.Fs.Fat.Creating
import Stuos.Fs.Fat.Directories
import Stuos.Fs.Fat.Dirent
import Stuos.Fs.Fat.Entries
import Stuos.Fs.Fat.Extending
import Stuos.Fs.Fat.Files
import Stuos.Fs.Fat.Filling
import Stuos.Fs.Fat.Free
import Stuos.Fs.Fat.Integrity
import Stuos.Fs.Fat.Listing
import Stuos.Fs.Fat.LongNames
import Stuos.Fs.Fat.Mount
import Stuos.Fs.Fat.NameBuffers
import Stuos.Fs.Fat.Placing
import Stuos.Fs.Fat.RootDirectory
import Stuos.Fs.Fat.Scanning
import Stuos.Fs.Fat.ShortNames
import Stuos.Fs.Fat.Steps
import Stuos.Fs.Fat.Tree
import Stuos.Fs.Fat.View
import Stuos.Fs.Fat.Volume
import Stuos.Fs.Fat.Writing
import Stuos.Fs.Mounting
import Stuos.Fs.OpenDirectory
import Stuos.Fs.Paging
import Stuos.Fs.Partitions
import Stuos.Fs.Path
import Stuos.Fs.PathNames
import Stuos.Fs.Resolution
import Stuos.Fs.SectorCalls
import Stuos.Fs.VNode
import Stuos.Fs.VfsGet
import Stuos.Ipc.OpenFile
import Stuos.Ipc.Pipe
import Stuos.Ipc.PipeBounds
import Stuos.Lib.Amd64
import Stuos.Lib.Bytes
import Stuos.Lib.Chain
import Stuos.Lib.Deque
import Stuos.Lib.Digits
import Stuos.Lib.FileStore
import Stuos.Lib.FirstDifference
import Stuos.Lib.FirstFit
import Stuos.Lib.Halt
import Stuos.Lib.Laps
import Stuos.Lib.Loop
import Stuos.Lib.Lts
import Stuos.Lib.MaxByKey
import Stuos.Lib.Overwrite
import Stuos.Lib.RefCount
import Stuos.Lib.Runs
import Stuos.Lib.StableSort
import Stuos.Lib.Tiling
import Stuos.Lib.Trie
import Stuos.Lib.Utf8
import Stuos.Libc.CString
import Stuos.Libc.Execvp
import Stuos.Libc.Fgets
import Stuos.Libc.Fread
import Stuos.Libc.Mbrtowc
import Stuos.Libc.MbrtowcErrors
import Stuos.Libc.Mbsrtowcs
import Stuos.Libc.Memmove
import Stuos.Libc.Printf
import Stuos.Libc.PrintfInteger
import Stuos.Libc.PrintfText
import Stuos.Libc.Qsort
import Stuos.Libc.Readdir
import Stuos.Libc.Scalars
import Stuos.Libc.Setjmp
import Stuos.Libc.Strcmp
import Stuos.Libc.Strncpy
import Stuos.Libc.Strspn
import Stuos.Libc.Strtok
import Stuos.Libc.Strtol
import Stuos.Libc.StrtolEnd
import Stuos.Libc.Wchar
import Stuos.Malloc.Growth
import Stuos.Malloc.Integrity
import Stuos.Malloc.Library
import Stuos.Malloc.LinkedListItem
import Stuos.Malloc.Runs
import Stuos.Malloc.Sizes
import Stuos.Memory.Accounting
import Stuos.Memory.Boot
import Stuos.Memory.CleanTables
import Stuos.Memory.Cloning
import Stuos.Memory.Enough
import Stuos.Memory.FreshPages
import Stuos.Memory.Mapping
import Stuos.Memory.PageTables
import Stuos.Memory.Programs
import Stuos.Memory.Removing
import Stuos.Memory.Slab
import Stuos.Memory.Spaces
import Stuos.Memory.Stores
import Stuos.Memory.Translation
import Stuos.Memory.Walk
import Stuos.Os.ContextSwitch
import Stuos.Os.Cr3
import Stuos.Os.FileStore
import Stuos.Os.Isolation
import Stuos.Os.Limits
import Stuos.Os.Progress
import Stuos.Os.Requests
import Stuos.Os.Resume
import Stuos.Os.Steps
import Stuos.Os.System
import Stuos.Ps2.Decoding
import Stuos.Ps2.Driver
import Stuos.Ps2.Shift
import Stuos.Ps2.Typing
import Stuos.Sched.ApicTimer
import Stuos.Sched.Dup2
import Stuos.Sched.Files
import Stuos.Sched.Lifetime
import Stuos.Sched.PipeEnds
import Stuos.Sched.Process
import Stuos.Sched.Queue
import Stuos.Sched.RoundRobin
import Stuos.Sched.Starvation
import Stuos.Sched.Steps
import Stuos.Sched.Wait
import Stuos.Tty.Cursor
import Stuos.Tty.Editing
import Stuos.Tty.InputBuffer
import Stuos.Tty.LineDiscipline
import Stuos.Tty.Lines
import Stuos.Tty.Terminal
import Stuos.Usb.Capabilities
import Stuos.Usb.Configuration
import Stuos.Usb.Descriptors
import Stuos.Usb.EventRing
import Stuos.Usb.Keyboard
import Stuos.Usb.TransferRing
import Stuos.Usb.Trb
