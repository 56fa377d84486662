import Xv6.Fs.Disk
import Xv6.Lib.Triple

/-!
# The file system in memory: inodes, directories, path names (`kernel/fs.c`)

What the system calls of `kernel/sysfile.c` see: the disk of `Xv6.Fs.Disk`, the inode table
(`itable`), the file table (`ftable`) and each process's current directory and descriptors.  A
system call is one program of `FsM`, a state monad whose errors are panics.

* the inode table: `iget`, `idup`, `ilock`, `iput`, `ialloc`, `iupdate`;
* directories: `dirlookup`, `dirlink`, `isdirempty`;
* path names: `skipelem`, `namex`, `namei`, `nameiparent`.

There is one device, and an in-memory inode is named by its i-number: `Sys.ref` and
`Sys.valid` are the `ref` and `valid` of its `itable` entry.  Its other fields are read from the
disk, since every change to them is written back (`iupdate`) before the inode is unlocked.  Sleep
locks and `begin_op`/`end_op` are not modelled: a system call runs as one step.
-/

namespace Xv6.Fs

/-- The `type` of a `struct file`; the pipe behind an `FD_PIPE` file belongs to the model of
pipes. -/
inductive FType
  | none
  | pipe
  | inode
  | device
  deriving DecidableEq, Repr

/-- A `struct file`, less its pipe. -/
structure File where
  type : FType
  ref : ℕ
  readable : Bool
  writable : Bool
  ip : ℕ
  off : ℕ
  major : ℤ

/-- The file system state of the kernel, with processes named by `ι`. -/
structure Sys (ι : Type) where
  disk : Disk
  /-- `ref` of the `itable` entry of each inode. -/
  ref : ℕ → ℕ
  /-- `valid` of the `itable` entry of each inode: read from disk since it was last loaded. -/
  valid : ℕ → Bool
  /-- `ftable`. -/
  file : Fin nfile → File
  /-- The process slot is in use. -/
  live : ι → Bool
  /-- `p->cwd`, `0` for none. -/
  cwd : ι → ℕ
  /-- `p->ofile`. -/
  ofile : ι → Fin nofile → Option (Fin nfile)

/-- A program of the file system: a new state and a result, or a panic. -/
abbrev FsM (ι : Type) := StateT (Sys ι) (Except String)

variable {ι : Type}

/-- Run an operation of the disk on the state's disk. -/
def onDisk {α : Type} (f : Disk → Except String (Disk × α)) : FsM ι α := fun s =>
  (f s.disk).map fun r => (r.2, { s with disk := r.1 })

/-- A disk operation whose errors are not `bad`, and whose result satisfies `Q`. -/
theorem onDisk_triple {α : Type} {bad : String → Prop} {P : Sys ι → Prop}
    {Q : α → Sys ι → Prop} {f : Disk → Except String (Disk × α)}
    (h : ∀ s, P s → (∀ e, f s.disk = .error e → ¬ bad e) ∧
      ∀ d a, f s.disk = .ok (d, a) → Q a { s with disk := d }) :
    Triple bad P (onDisk f) Q := fun s hs => by
  obtain ⟨he, hok⟩ := h s hs
  show Outcome _ _ ((f s.disk).map _)
  rcases hf : f s.disk with e | ⟨d, a⟩
  · exact he e hf
  · exact hok d a hf

/-! ### The inode table -/

/-- `iget`: one more reference to inode `inum`.  An inode nobody referred to gets a fresh entry,
not yet read from disk. -/
def iget (inum : ℕ) : FsM ι Unit :=
  modify fun s => { s with
    ref := Function.update s.ref inum (s.ref inum + 1)
    valid := if s.ref inum = 0 then Function.update s.valid inum false else s.valid }

/-- `idup`: one more reference to an inode already referred to. -/
def idup (ip : ℕ) : FsM ι Unit :=
  modify fun s => { s with ref := Function.update s.ref ip (s.ref ip + 1) }

/-- `ilock`: read the inode from disk if its entry is not valid; a free inode panics. -/
def ilock (ip : ℕ) : FsM ι Unit := do
  let s ← get
  if s.ref ip < 1 then throw "ilock"
  else if s.valid ip then pure ()
  else if (s.disk.inode ip).type = .free then throw "ilock: no type"
  else set { s with valid := Function.update s.valid ip true }

/-- `iput`: drop a reference.  The last reference to a valid inode with no links frees it:
`itrunc`, then `type = 0` written back, and the entry is no longer valid. -/
def iput (ip : ℕ) : FsM ι Unit := do
  let s ← get
  if s.ref ip = 1 ∧ s.valid ip = true ∧ (s.disk.inode ip).nlink = 0 then
    onDisk fun d => (itrunc d ip).map fun d => (d.setInode ip { d.inode ip with type := .free }, ())
    modify fun s => { s with valid := Function.update s.valid ip false }
  modify fun s => { s with ref := Function.update s.ref ip (s.ref ip - 1) }

/-- `ialloc`: the first free inode from `1`, zeroed and given `type`, with a reference; `none`
when every inode is in use ("ialloc: no inodes"). -/
def ialloc (type : IType) : FsM ι (Option ℕ) := do
  let s ← get
  match (List.range' 1 (nInodes - 1)).find? (fun inum => (s.disk.inode inum).type = .free) with
  | none => pure none
  | some inum =>
    set { s with disk := s.disk.setInode inum ⟨type, 0, 0, 0, fun _ => 0⟩ }
    iget inum
    pure (some inum)

/-- Change fields of inode `ip` and write it back (`iupdate`). -/
def iupdate (ip : ℕ) (f : Dinode → Dinode) : FsM ι Unit :=
  modify fun s => { s with disk := s.disk.setInode ip (f (s.disk.inode ip)) }

/-! ### Directories -/

/-- `namecmp`: the names agree on their first `DIRSIZ` bytes. -/
def namecmp (s t : List Char) : Bool := s.take dirsiz == t.take dirsiz

/-- The entries of inode `dp` below its size. -/
def Disk.nent (d : Disk) (dp : ℕ) : ℕ := (d.inode dp).size / direntSize

/-- The first live entry of directory `dp` whose name agrees with `name`. -/
def Disk.lookup (d : Disk) (dp : ℕ) (name : List Char) : Option ℕ :=
  (List.range (d.nent dp)).find? fun k => (d.dir dp k).inum != 0 && namecmp name (d.dir dp k).name

/-- `dirlookup`: the inode of the entry, with a reference, and the entry's offset. -/
def dirlookup (dp : ℕ) (name : List Char) : FsM ι (Option (ℕ × ℕ)) := do
  let s ← get
  if (s.disk.inode dp).type ≠ .dir then throw "dirlookup not DIR"
  else match s.disk.lookup dp name with
    | none => pure none
    | some k => do
      iget (s.disk.dir dp k).inum
      pure (some ((s.disk.dir dp k).inum, k * direntSize))

/-- The entry `dirlink` writes: the first free one, or the one after the last. -/
def Disk.freeEntry (d : Disk) (dp : ℕ) : ℕ :=
  ((List.range (d.nent dp)).find? fun k => (d.dir dp k).inum = 0).getD (d.nent dp)

/-- `dirlink`: a new entry `(name, inum)` in directory `dp`; `-1` when the name is present or
the entry cannot be written. -/
def dirlink (dp : ℕ) (name : List Char) (inum : ℕ) : FsM ι ℤ := do
  match ← dirlookup dp name with
  | some (ip, _) =>
    iput ip
    pure (-1)
  | none =>
    let k := (← get).disk.freeEntry dp
    let r ← onDisk fun d => writei d dp (k * direntSize) direntSize fun _ => true
    if r ≠ direntSize then pure (-1)
    else
      modify fun s => { s with disk := s.disk.setDir dp k ⟨inum, name.take dirsiz⟩ }
      pure 0

/-- `isdirempty`: no live entry but the first two. -/
def isdirempty (d : Disk) (dp : ℕ) : Bool :=
  (List.range' 2 (d.nent dp - 2)).all fun k => (d.dir dp k).inum == 0

/-! ### Path names -/

/-- `skipelem`: the next element of `path`, cut to `DIRSIZ` bytes, and the rest of the path
without its leading slashes; `none` when no element is left. -/
def skipelem (path : List Char) : Option (List Char × List Char) :=
  match path.dropWhile (· == '/') with
  | [] => none
  | path =>
    some ((path.takeWhile (· != '/')).take dirsiz, (path.dropWhile (· != '/')).dropWhile (· == '/'))

/-- The loop of `namex` from inode `ip`, which the caller holds a reference to.  Each turn takes
at least one byte off the path, so `path.length + 1` turns are enough. -/
def namexLoop (nameiparent : Bool) : ℕ → ℕ → List Char → FsM ι (Option (ℕ × List Char))
  | fuel + 1, ip, path =>
    match skipelem path with
    | some (name, rest) => do
      ilock ip
      if ((← get).disk.inode ip).type ≠ .dir then
        iput ip
        pure none
      else if nameiparent ∧ rest = [] then
        -- Stop one level early.
        pure (some (ip, name))
      else match ← dirlookup ip name with
        | none =>
          iput ip
          pure none
        | some (next, _) =>
          iput ip
          namexLoop nameiparent fuel next rest
    | none => done ip
  | 0, ip, _ => done ip
where
  /-- The path is used up. -/
  done (ip : ℕ) : FsM ι (Option (ℕ × List Char)) :=
    if nameiparent then do
      iput ip
      pure none
    else pure (some (ip, []))

/-- `namex` from the current directory `cwd`: the inode of `path`, or of its parent and the last
element; the result holds a reference. -/
def namex (cwd : ℕ) (path : List Char) (nameiparent : Bool) :
    FsM ι (Option (ℕ × List Char)) := do
  if path.head? = some '/' then
    iget rootIno
    namexLoop nameiparent (path.length + 1) rootIno path
  else
    idup cwd
    namexLoop nameiparent (path.length + 1) cwd path

/-- `namei`. -/
def namei (cwd : ℕ) (path : List Char) : FsM ι (Option ℕ) := do
  return (← namex cwd path false).map Prod.fst

/-- `nameiparent`. -/
def nameiparent (cwd : ℕ) (path : List Char) : FsM ι (Option (ℕ × List Char)) :=
  namex cwd path true

end Xv6.Fs
