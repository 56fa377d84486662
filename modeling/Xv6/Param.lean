import Mathlib.Tactic

/-!
# xv6 constants

The compile-time constants of `kernel/param.h`, `kernel/fs.h`, `kernel/fcntl.h`, `kernel/riscv.h`,
`kernel/pipe.c` and `mkfs/mkfs.c` that the model reads, under the source's names in lower camel case.
Sizes of C structures (`sizeof(struct dinode)`, `sizeof(struct dirent)`) are spelled out as
numbers, with the field layout that gives them in the comment beside each.
-/

namespace Xv6

/-! ### `kernel/param.h` -/

/-- `NPROC`: maximum number of processes. -/
def nproc : ℕ := 64
instance : NeZero nproc := ⟨by decide⟩

/-- `NOFILE`: open files per process. -/
def nofile : ℕ := 16
/-- `NFILE`: open files per system. -/
def nfile : ℕ := 100
instance : NeZero nfile := ⟨by decide⟩
/-- `NINODE`: maximum number of active i-nodes, the entries of `itable`. -/
def ninode : ℕ := 50
instance : NeZero ninode := ⟨by decide⟩
/-- `ROOTDEV`: device number of the file system root disk. -/
def rootdev : ℕ := 1
/-- `MAXOPBLOCKS`: maximum number of blocks any file-system operation writes. -/
def maxOpBlocks : ℕ := 10
/-- `LOGSIZE`: maximum number of data blocks in the on-disk log. -/
def logSize : ℕ := maxOpBlocks * 3
/-- `NBUF`: size of the disk block cache. -/
def nbuf : ℕ := maxOpBlocks * 3
instance : NeZero nbuf := ⟨by decide⟩
/-- `FSSIZE`: size of the file system in blocks. -/
def fsSize : ℕ := 2000
/-- `NDEV`: maximum major device number. -/
def nDev : ℕ := 10
/-- `MAXPATH`: maximum file path name. -/
def maxPath : ℕ := 128
/-- `MAXARG`: maximum `exec` arguments. -/
def maxArg : ℕ := 32

/-! ### `kernel/fs.h` -/

/-- `ROOTINO`: the root i-number. -/
def rootIno : ℕ := 1
/-- `BSIZE`: block size in bytes. -/
def bsize : ℕ := 1024
/-- `NDIRECT`: direct block addresses in an inode. -/
def nDirect : ℕ := 12
/-- `NINDIRECT`: `BSIZE / sizeof(uint)` addresses in the indirect block. -/
def nIndirect : ℕ := bsize / 4
/-- `MAXFILE`: the largest file, in blocks. -/
def maxFile : ℕ := nDirect + nIndirect
/-- `IPB`: inodes per block; `sizeof(struct dinode)` is `4 * 2 + 4 + 13 * 4 = 64`. -/
def ipb : ℕ := bsize / 64
/-- `BPB`: bitmap bits per block. -/
def bpb : ℕ := bsize * 8
/-- `DIRSIZ`: bytes of a name in a directory entry. -/
def dirsiz : ℕ := 14
/-- `sizeof(struct dirent)`: a `ushort` i-number and `DIRSIZ` name bytes. -/
def direntSize : ℕ := 2 + dirsiz

/-! ### `kernel/fcntl.h` -/

/-- `O_RDONLY`. -/
def oRdonly : ℕ := 0x000
/-- `O_WRONLY`. -/
def oWronly : ℕ := 0x001
/-- `O_RDWR`. -/
def oRdwr : ℕ := 0x002
/-- `O_CREATE`. -/
def oCreate : ℕ := 0x200
/-- `O_TRUNC`. -/
def oTrunc : ℕ := 0x400

/-! ### `kernel/riscv.h` -/

/-- `PGSIZE`: bytes per page. -/
def pgSize : ℕ := 4096
/-- `MAXVA`: one beyond the highest Sv39 virtual address xv6 uses. -/
def maxVa : ℕ := 2 ^ (9 + 9 + 9 + 12 - 1)
/-- `PTE_V`: valid. -/
def pteV : ℕ := 1
/-- `PTE_R`: readable. -/
def pteR : ℕ := 2
/-- `PTE_W`: writable. -/
def pteW : ℕ := 4
/-- `PTE_X`: executable. -/
def pteX : ℕ := 8
/-- `PTE_U`: user can access. -/
def pteU : ℕ := 16

/-! ### `kernel/pipe.c` and `mkfs/mkfs.c` -/

/-- `PIPESIZE`: bytes of a pipe buffer. -/
def pipeSize : ℕ := 512
/-- `nlog` in `mkfs`: the log's blocks, header block included, as written to `sb.nlog`. -/
def nlog : ℕ := logSize
/-- `NINODES` in `mkfs`: the inodes of the file system, `sb.ninodes`. -/
def nInodes : ℕ := 200
/-- `ninodeblocks` in `mkfs`. -/
def nInodeBlocks : ℕ := nInodes / ipb + 1
/-- `nbitmap` in `mkfs`. -/
def nBitmap : ℕ := fsSize / bpb + 1
/-- `nmeta` in `mkfs`: boot block, superblock, log, inode blocks and bitmap; the data blocks
follow. -/
def nMeta : ℕ := 2 + nlog + nInodeBlocks + nBitmap

end Xv6
