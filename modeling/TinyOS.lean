import TinyOS.Lib.Run
import TinyOS.Lib.Ring
import TinyOS.Klib.List
import TinyOS.Lib.Word
import TinyOS.Sem.Basic
import TinyOS.Sem.Run
import TinyOS.Fs.Basic
import TinyOS.Fs.Layout
import TinyOS.Fs.Block
import TinyOS.Fs.Owner
import TinyOS.Fs.Walk
import TinyOS.Fs.Data
import TinyOS.Fs.Trunc
import TinyOS.Fs.Mkfs
import TinyOS.Fs.Image
import TinyOS.Fs.Content
import TinyOS.Fs.Dir
import TinyOS.Fs.Names
import TinyOS.Fs.Seats
import TinyOS.Fs.Lookup
import TinyOS.Fs.Path
import TinyOS.Fs.Disk
import TinyOS.Fs.Mount
import TinyOS.Fs.Tree
import TinyOS.Fs.Handles
import TinyOS.Fs.Agree
import TinyOS.Proc.Basic
import TinyOS.Proc.Waits
import TinyOS.Proc.Calls
import TinyOS.Proc.Sched
import TinyOS.Proc.Usem
import TinyOS.Fs.Sound
import TinyOS.File.Basic
import TinyOS.File.Refs
import TinyOS.File.Dirs
import TinyOS.Proc.Counts
import TinyOS.File.Unlinked
import TinyOS.File.Lift
import TinyOS.Fs.Placed
import TinyOS.File.Orphans
import TinyOS.Vm.Basic
import TinyOS.Vm.Space
import TinyOS.Vm.Map
import TinyOS.Vm.Copy
import TinyOS.Vm.Release
import TinyOS.Vm.Rights
import TinyOS.Vm.Built
import TinyOS.Vm.Fork
import TinyOS.Vm.Procs
import TinyOS.Vm.Brk
import TinyOS.Vm.Exec
import TinyOS.Vm.Sbrk
import TinyOS.Fs.Reads
import TinyOS.File.Stream
import TinyOS.Vm.Confined
import TinyOS.Vm.Ledger
import TinyOS.Vm.Ranges
import TinyOS.Vm.Limits
import TinyOS.Fs.Resolve
import TinyOS.File.Failed
import TinyOS.Fs.Progress
import TinyOS.Proc.Line
import TinyOS.Proc.Readers
import TinyOS.Proc.Kin
import TinyOS.Proc.Family
import TinyOS.Proc.Whole
import TinyOS.Proc.Handover
import TinyOS.Proc.Orphans
import TinyOS.Vm.Heap
import TinyOS.Vm.View
import TinyOS.File.Seek
import TinyOS.Proc.Bypass
import TinyOS.Vm.Put
import TinyOS.Vm.Args
import TinyOS.Vm.Start
import TinyOS.Load.Basic
import TinyOS.Vm.Fresh
import TinyOS.Load.File
import TinyOS.Load.Segment
import TinyOS.Load.Headers
import TinyOS.Load.Malformed
import TinyOS.Load.Elf
import TinyOS.Load.Image
import TinyOS.Fs.Elem
import TinyOS.Klib.Fifo
import TinyOS.Boot.Kernel
import TinyOS.Sem.Queue
import TinyOS.User.Philosopher
import TinyOS.Lab.Buffer
import TinyOS.User.Scanf
import TinyOS.User.Head
import TinyOS.User.Xargs
import TinyOS.User.Pwd
import TinyOS.Lib.Cycle
import TinyOS.Lib.Tiles
import TinyOS.User.Malloc
import TinyOS.User.Freelist
import TinyOS.User.Heap
import TinyOS.User.Shell
import TinyOS.User.Tokens
import TinyOS.User.Grammar
import TinyOS.User.Words
import TinyOS.User.Jobs
import TinyOS.User.Script
import TinyOS.User.Match
import TinyOS.User.Grep
import TinyOS.Lib.Radix
import TinyOS.Stdio.Strtol
import TinyOS.Stdio.Number
import TinyOS.Stdio.Format
import TinyOS.Stdio.Scan
import TinyOS.Lib.Words
import TinyOS.Cpu.Basic
import TinyOS.Cpu.Trap
import TinyOS.Cpu.Switch
import TinyOS.Cpu.Own
import TinyOS.Lib.Monitor
import TinyOS.Lab.Monitors
