import Xv6.Lib.Prog
import Xv6.Lib.Run
import Xv6.Lib.Count
import Xv6.Lib.Crash
import Xv6.Lib.Absorb
import Xv6.Machine.Word
import Xv6.Machine.Kalloc
import Xv6.Machine.Vm
import Xv6.Machine.Space
import Xv6.Machine.Rep
import Xv6.Machine.Refs
import Xv6.Machine.Release
import Xv6.Machine.Setup
import Xv6.Machine.Fill
import Xv6.Machine.Wraps
import Xv6.Machine.Share
import Xv6.Machine.Translate
import Xv6.Kernel.State
import Xv6.Kernel.Wmap
import Xv6.Kernel.Proc
import Xv6.Kernel.Fork
import Xv6.Kernel.Trap
import Xv6.Kernel.Exec
import Xv6.Kernel.Image
import Xv6.Kernel.Args
import Xv6.Kernel.Elf
import Xv6.Kernel.System
import Xv6.Kernel.Control
import Xv6.Kernel.Boot
import Xv6.Kernel.Cpus
import Xv6.Kernel.File
import Xv6.Kernel.Syscall
import Xv6.Kernel.Request
import Xv6.Kernel.Tables
import Xv6.Kernel.OpenFiles
import Xv6.Kernel.FileCalls
import Xv6.Kernel.Backing
import Xv6.Kernel.Paging
import Xv6.Kernel.Regions
import Xv6.Kernel.Failures
import Xv6.Kernel.Steps
import Xv6.Kernel.Growing
import Xv6.Kernel.Program
import Xv6.Kernel.Unmapping
import Xv6.Kernel.Exiting
import Xv6.Kernel.Report
import Xv6.Kernel.WriteBack
import Xv6.Kernel.Loading
import Xv6.Kernel.Offset
import Xv6.Kernel.Dangling
import Xv6.Log.Commit
import Xv6.Log.Group
import Xv6.Lib.Ring
import Xv6.Sync.Pipe
import Xv6.Sync.Pids
import Xv6.Sync.Wakeup
import Xv6.Fs.Disk
import Xv6.Fs.Inode
import Xv6.Fs.Dir
import Xv6.Fs.Calls
import Xv6.Fs.Frame
import Xv6.Fs.Track
import Xv6.Fs.Refs
import Xv6.Lib.Owner
import Xv6.Fs.Blocks
import Xv6.Fs.Room
import Xv6.Fs.Contents
import Xv6.Fs.Tree
import Xv6.Fs.Bytes
import Xv6.Fs.Write
import Xv6.Fs.Names
import Xv6.Fs.Path
import Xv6.Lib.Chain
import Xv6.Dev.Console
import Xv6.Dev.Ide
import Xv6.Dev.Mp
import Xv6.User.Memmove
import Xv6.User.Match
import Xv6.User.Grep
import Xv6.Lib.Tiling
import Xv6.User.Malloc
import Xv6.User.FreeList
import Xv6.User.Heap
import Xv6.User.Sh
