import Xv6.Param
import Xv6.Lib.Run
import Xv6.Lib.Writes
import Xv6.Log.Disk
import Xv6.Log.Recovery
import Xv6.Proc.Table
import Xv6.Vm.Walk
import Xv6.Vm.Copy
import Xv6.Vm.Copyinstr
import Xv6.Lib.Family
import Xv6.Log.Txn
import Xv6.Log.Reserve
import Xv6.Lib.Ring
import Xv6.Pipe
import Xv6.Pipe.Records
import Xv6.Lib.DList
import Xv6.Bio.Cache
import Xv6.Bio.Linked
import Xv6.Log.Pin
import Xv6.Fs.Disk
import Xv6.Lib.Triple
import Xv6.Fs.Inode
import Xv6.Fs.Syscall
import Xv6.Fs.Blocks
import Xv6.Fs.Links
import Xv6.Fs.Refs
import Xv6.Fs.Itable
import Xv6.Fs.Mkfs
import Xv6.Lib.Runs
import Xv6.Fs.Names
import Xv6.Console
import Xv6.User.Umalloc
import Xv6.User.Xargs
import Xv6.User.Primes
import Xv6.Virtio
import Xv6.Virtio.Chains
import Xv6.String
import Xv6.User.Grep
import Xv6.User.Printf
import Xv6.Uart
import Xv6.Fs.Bitmap
import Xv6.User.Find
import Xv6.Fs.Data
import Xv6.Fs.Contents
import Xv6.Fs.Shared
import Xv6.Vm.Kalloc
import Xv6.Vm.Tree
import Xv6.Vm.Map
import Xv6.Vm.Uvm
import Xv6.Vm.Free
import Xv6.Vm.Uvmcopy
import Xv6.Proc.Memory
import Xv6.Lib.Pool
import Xv6.Proc.MemSys
