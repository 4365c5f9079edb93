import Xv6.Core.LTS
import Xv6.Core.Bytes
import Xv6.Param
import Xv6.Log.Basic
import Xv6.Log.Crash
import Xv6.Log.Group
import Xv6.Log.Space
import Xv6.Core.Prog
import Xv6.Core.Tree
import Xv6.Vm.Basic
import Xv6.Vm.Map
import Xv6.Vm.Refine
import Xv6.Proc.Wait
import Xv6.Proc.WaitInv
import Xv6.Proc.Family
import Xv6.Proc.Reap
import Xv6.Fs.Basic
import Xv6.Core.Ledger
import Xv6.Fs.Own
import Xv6.Fs.Content
import Xv6.Fs.Dir
import Xv6.Fs.Trunc
import Xv6.Fs.Entries
import Xv6.Fs.Blocks
import Xv6.Core.Ring
import Xv6.Pipe.Basic
import Xv6.Pipe.Fifo
import Xv6.Proc.Kill
import Xv6.Pipe.Wake
import Xv6.Sched.Basic
import Xv6.Sched.Table
import Xv6.Sched.Inv
import Xv6.Sched.Step
import Xv6.Sched.Cpu
import Xv6.Sched.Wakeup
import Xv6.Bio.Basic
import Xv6.Bio.List
import Xv6.Bio.Coherence
import Xv6.Log.Cache
import Xv6.Bio.Pin
import Xv6.Bio.Blocks
import Xv6.Log.Pin
import Xv6.Log.Stay
import Xv6.Fs.Short
import Xv6.File.Basic
import Xv6.File.Read
import Xv6.Fs.Sysfile
import Xv6.Fs.Whole
import Xv6.Mkfs.Basic
import Xv6.Mkfs.Refine
import Xv6.Mkfs.Image
import Xv6.Mkfs.Files
import Xv6.Virtio.Basic
import Xv6.Virtio.Complete
import Xv6.File.Refs
import Xv6.Core.Tiles
import Xv6.File.Share
import Xv6.Fs.Walk
import Xv6.Mkfs.Lookup
import Xv6.Vm.Translate
import Xv6.Vm.Alloc
import Xv6.Vm.Protect
import Xv6.Vm.Free
import Xv6.Vm.Dup
import Xv6.Image.Basic
import Xv6.Vm.Isolate
import Xv6.Image.Fork
import Xv6.Image.Load
import Xv6.Image.Args
import Xv6.Image.Exec
import Xv6.Core.Partition
import Xv6.Image.Sys
import Xv6.Image.Own
import Xv6.Image.Pages
import Xv6.Image.Runs
import Xv6.Fs.Names
import Xv6.Fs.Hold
import Xv6.Fs.Fsck
import Xv6.Fs.Path
import Xv6.File.PipeRead
import Xv6.User.Grep
import Xv6.Sched.Nesting
import Xv6.Console.Uart
import Xv6.Sleeplock
import Xv6.Memmove
import Xv6.User.Printf
import Xv6.User.Rhstring
