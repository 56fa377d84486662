import Xv6.Fs.Inode
import Xv6.Lib.Run

/-!
# File-system system calls (`kernel/sysfile.c`, `kernel/file.c`)

The open-file table, the system calls that change the file system, and the parts of `fork` and
`exit` that touch it, each as one program of `FsM`; `step` runs one call of a live process to
completion, and `init` is the state `userinit` leaves on a disk.

* files: `filealloc`, `filedup`, `fileclose`, `filewrite`, and a process's `fdalloc`, `argfd`;
* `create`, the shared part of `open` with `O_CREATE`, `mkdir` and `mknod`;
* `sysOpen`, `sysWrite`, `sysClose`, `sysDup`, `sysLink`, `sysUnlink`, `sysMkdir`, `sysMknod`,
  `sysChdir`, `sysPipe` with the files of `pipealloc`, the part of `sysExec` that looks up the
  image, `fork`, `exit`;
* `Call`, `syscall`, `step` with `step_inv` (what every call keeps, every step keeps), `init`,
  and `mkfsImage`, the disk `mkfs` writes with no file.

A system call's arguments are what `argint` and `argstr` fetched: a path is the string before its
terminating NUL, and `argstr` fails on one of `MAXPATH` bytes or more.  Reading a file changes
only its offset and is not modelled; the pipes behind pipe files have a model of their own.
-/

namespace Xv6.Fs

variable {ι : Type} [DecidableEq ι]

/-! ### Open files -/

/-- `argfd`: descriptor `fd` of process `p` and the file it names. -/
def argfd (s : Sys ι) (p : ι) (fd : ℕ) : Option (Fin nofile × Fin nfile) :=
  if h : fd < nofile then (s.ofile p ⟨fd, h⟩).map fun f => (⟨fd, h⟩, f) else none

/-- `fdalloc`: the first free descriptor of `p`, now naming `f`. -/
def fdalloc (p : ι) (f : Fin nfile) : FsM ι (Option (Fin nofile)) := do
  let s ← get
  match (List.finRange nofile).find? (fun fd => (s.ofile p fd).isNone) with
  | none => pure none
  | some fd =>
    set { s with ofile := Function.update s.ofile p (Function.update (s.ofile p) fd (some f)) }
    pure (some fd)

/-- `filealloc`: the first file with no reference, now with one. -/
def filealloc : FsM ι (Option (Fin nfile)) := do
  let s ← get
  match (List.finRange nfile).find? (fun f => (s.file f).ref = 0) with
  | none => pure none
  | some f =>
    set { s with file := Function.update s.file f { s.file f with ref := 1 } }
    pure (some f)

/-- `filedup`. -/
def filedup (f : Fin nfile) : FsM ι Unit := do
  let s ← get
  if (s.file f).ref < 1 then throw "filedup"
  else set { s with file := Function.update s.file f { s.file f with ref := (s.file f).ref + 1 } }

/-- `fileclose`: drop a reference; the last one releases the file's inode. -/
def fileclose (f : Fin nfile) : FsM ι Unit := do
  let s ← get
  let ff := s.file f
  if ff.ref < 1 then throw "fileclose"
  else if 0 < ff.ref - 1 then
    set { s with file := Function.update s.file f { ff with ref := ff.ref - 1 } }
  else
    set { s with file := Function.update s.file f { ff with ref := 0, type := .none } }
    if ff.type = .inode ∨ ff.type = .device then iput ff.ip

/-- `((MAXOPBLOCKS-1-1-2) / 2) * BSIZE`: the bytes `filewrite` writes in one transaction. -/
def maxWrite : ℕ := (maxOpBlocks - 1 - 1 - 2) / 2 * bsize

/-- The loop of `filewrite` on an inode file: `i` of the `n` bytes written so far.  `ok j` says
whether the user bytes from `addr + j` can be copied in.  Each turn writes at least one byte,
so `n` turns are enough. -/
def filewriteLoop (f : Fin nfile) (n : ℕ) (ok : ℕ → Bool) : ℕ → ℕ → FsM ι ℕ
  | 0, i => pure i
  | fuel + 1, i =>
    if i < n then do
      let n1 := min (n - i) maxWrite
      let ip := ((← get).file f).ip
      ilock ip
      let off := ((← get).file f).off
      let r ← onDisk fun d => writei d ip off n1 fun t => ok (i + t)
      if 0 < r then
        modify fun s => { s with
          file := Function.update s.file f { s.file f with off := (s.file f).off + r.toNat } }
      if r ≠ n1 then pure i
      else filewriteLoop f n ok fuel (i + n1)
    else pure i

/-- `filewrite` of `n` bytes; `dev` is what the device driver's `write` returns (`-1` when the
device has none), or `pipewrite` on a pipe, which leaves the file system alone. -/
def filewrite (f : Fin nfile) (n : ℤ) (ok : ℕ → Bool) (dev : ℤ) : FsM ι ℤ := do
  let ff := (← get).file f
  if !ff.writable then pure (-1)
  else match ff.type with
    | .pipe => pure dev
    | .inode => do
      let i ← filewriteLoop f n.toNat ok n.toNat 0
      pure (if (i : ℤ) = n then n else -1)
    | .device => pure (if ff.major < 0 ∨ nDev ≤ ff.major then -1 else dev)
    | .none => throw "filewrite"

/-- The files of `pipealloc`: a read end `f0` and a write end `f1`, or `none` when the file
table is full or `kalloc` of the pipe fails (`kallocOk`), with the files taken closed again.  The
pipe itself is `Pipe.pipealloc`. -/
def pipealloc (kallocOk : Bool) : FsM ι (Option (Fin nfile × Fin nfile)) := do
  match ← filealloc with
  | none => pure none
  | some f0 =>
    match ← filealloc with
    | none =>
      fileclose f0
      pure none
    | some f1 =>
      if kallocOk then
        modify fun s => { s with
          file := Function.update s.file f0
            { s.file f0 with type := .pipe, readable := true, writable := false } }
        modify fun s => { s with
          file := Function.update s.file f1
            { s.file f1 with type := .pipe, readable := false, writable := true } }
        pure (some (f0, f1))
      else
        fileclose f0
        fileclose f1
        pure none

/-! ### Creating inodes -/

/-- The links `create` makes for a new inode `ip` named `name` in `dp`: `.` and `..` first for a
directory; `false` at the first that fails. -/
def createLinks (ip dp : ℕ) (name : List Char) (type : IType) : FsM ι Bool := do
  let dots ← if type = .dir then do
      -- No `ip->nlink++` for `.`: avoid a cyclic reference count.
      let r ← dirlink ip ['.'] ip
      if r < 0 then pure false
      else do
        let r ← dirlink ip ['.', '.'] dp
        pure (decide (0 ≤ r))
    else pure true
  if dots then do
    let r ← dirlink dp name ip
    pure (decide (0 ≤ r))
  else pure false

/-- `create`: with `type = T_FILE`, the file or device `path` already names; otherwise a new
inode of `type` linked in as `path`.  The result is locked and holds a reference; `none` on
failure. -/
def create (cwd : ℕ) (path : List Char) (type : IType) (major : ℤ) : FsM ι (Option ℕ) := do
  match ← nameiparent cwd path with
  | none => pure none
  | some (dp, name) =>
    ilock dp
    match ← dirlookup dp name with
    | some (ip, _) =>
      iput dp
      ilock ip
      let t := ((← get).disk.inode ip).type
      if type = .file ∧ (t = .file ∨ t = .device) then pure (some ip)
      else
        iput ip
        pure none
    | none =>
      match ← ialloc type with
      | none =>
        iput dp
        pure none
      | some ip =>
        ilock ip
        iupdate ip fun di => { di with major := major, nlink := 1 }
        if ← createLinks ip dp name type then
          if type = .dir then
            -- Now that success is certain: one more link for `..`.
            iupdate dp fun di => { di with nlink := short (di.nlink + 1) }
          iput dp
          pure (some ip)
        else
          -- Something went wrong: de-allocate `ip`.
          iupdate ip fun di => { di with nlink := 0 }
          iput ip
          iput dp
          pure none

/-! ### System calls -/

/-- `sys_open`. -/
def sysOpen (p : ι) (path : List Char) (omode : ℕ) : FsM ι ℤ := do
  if maxPath ≤ path.length then pure (-1)
  else
    let cwd := (← get).cwd p
    let ip? ← if omode &&& oCreate ≠ 0 then create cwd path .file 0
      else do
        match ← namei cwd path with
        | none => pure none
        | some ip =>
          ilock ip
          if ((← get).disk.inode ip).type = .dir ∧ omode ≠ oRdonly then
            iput ip
            pure none
          else pure (some ip)
    match ip? with
    | none => pure (-1)
    | some ip =>
      let di := (← get).disk.inode ip
      if di.type = .device ∧ (di.major < 0 ∨ nDev ≤ di.major) then
        iput ip
        pure (-1)
      else match ← filealloc with
        | none =>
          iput ip
          pure (-1)
        | some f =>
          match ← fdalloc p f with
          | none =>
            fileclose f
            iput ip
            pure (-1)
          | some fd =>
            let ff := (← get).file f
            let ff := if di.type = .device then { ff with type := .device, major := di.major }
              else { ff with type := .inode, off := 0 }
            let ff := { ff with
              ip := ip
              readable := omode &&& oWronly = 0
              writable := omode &&& oWronly ≠ 0 ∨ omode &&& oRdwr ≠ 0 }
            modify fun s => { s with file := Function.update s.file f ff }
            if omode &&& oTrunc ≠ 0 ∧ di.type = .file then
              onDisk fun d => (itrunc d ip).map ((·, ()))
            pure fd

/-- `sys_write`. -/
def sysWrite (p : ι) (fd : ℕ) (n : ℤ) (ok : ℕ → Bool) (dev : ℤ) : FsM ι ℤ := do
  match argfd (← get) p fd with
  | none => pure (-1)
  | some (_, f) => filewrite f n ok dev

/-- `sys_close`. -/
def sysClose (p : ι) (fd : ℕ) : FsM ι ℤ := do
  match argfd (← get) p fd with
  | none => pure (-1)
  | some (fd, f) =>
    modify fun s => { s with ofile := Function.update s.ofile p (Function.update (s.ofile p) fd none) }
    fileclose f
    pure 0

/-- `sys_dup`. -/
def sysDup (p : ι) (fd : ℕ) : FsM ι ℤ := do
  match argfd (← get) p fd with
  | none => pure (-1)
  | some (_, f) =>
    match ← fdalloc p f with
    | none => pure (-1)
    | some fd =>
      filedup f
      pure fd

/-- `sys_link`: `new` as one more name of the inode of `old`, which is not a directory. -/
def sysLink (p : ι) (old new : List Char) : FsM ι ℤ := do
  if maxPath ≤ old.length ∨ maxPath ≤ new.length then pure (-1)
  else
    let cwd := (← get).cwd p
    match ← namei cwd old with
    | none => pure (-1)
    | some ip =>
      ilock ip
      if ((← get).disk.inode ip).type = .dir then
        iput ip
        pure (-1)
      else
        iupdate ip fun di => { di with nlink := short (di.nlink + 1) }
        let linked ← do
          match ← nameiparent cwd new with
          | none => pure false
          | some (dp, name) =>
            ilock dp
            let r ← dirlink dp name ip
            iput dp
            pure (decide (0 ≤ r))
        if linked then
          iput ip
          pure 0
        else
          ilock ip
          iupdate ip fun di => { di with nlink := short (di.nlink - 1) }
          iput ip
          pure (-1)

/-- `sys_unlink`. -/
def sysUnlink (p : ι) (path : List Char) : FsM ι ℤ := do
  if maxPath ≤ path.length then pure (-1)
  else
    match ← nameiparent ((← get).cwd p) path with
    | none => pure (-1)
    | some (dp, name) =>
      ilock dp
      -- Cannot unlink `.` or `..`.
      if namecmp name ['.'] ∨ namecmp name ['.', '.'] then
        iput dp
        pure (-1)
      else match ← dirlookup dp name with
        | none =>
          iput dp
          pure (-1)
        | some (ip, off) =>
          ilock ip
          let di := (← get).disk.inode ip
          if di.nlink < 1 then throw "unlink: nlink < 1"
          if di.type = .dir ∧ !isdirempty (← get).disk ip then
            iput ip
            iput dp
            pure (-1)
          else
            let r ← onDisk fun d => writei d dp off direntSize fun _ => true
            if r ≠ direntSize then throw "unlink: writei"
            modify fun s => { s with disk := s.disk.setDir dp (off / direntSize) ⟨0, []⟩ }
            if di.type = .dir then
              iupdate dp fun di => { di with nlink := short (di.nlink - 1) }
            iput dp
            iupdate ip fun di => { di with nlink := short (di.nlink - 1) }
            iput ip
            pure 0

/-- `sys_mkdir`. -/
def sysMkdir (p : ι) (path : List Char) : FsM ι ℤ := do
  if maxPath ≤ path.length then pure (-1)
  else
    let cwd := (← get).cwd p
    match ← create cwd path .dir 0 with
    | none => pure (-1)
    | some ip =>
      iput ip
      pure 0

/-- `sys_mknod`; the `int` major number is stored in a `short`. -/
def sysMknod (p : ι) (path : List Char) (major : ℤ) : FsM ι ℤ := do
  if maxPath ≤ path.length then pure (-1)
  else
    let cwd := (← get).cwd p
    match ← create cwd path .device (short major) with
    | none => pure (-1)
    | some ip =>
      iput ip
      pure 0

/-- `sys_chdir`. -/
def sysChdir (p : ι) (path : List Char) : FsM ι ℤ := do
  if maxPath ≤ path.length then pure (-1)
  else
    match ← namei ((← get).cwd p) path with
    | none => pure (-1)
    | some ip =>
      ilock ip
      if ((← get).disk.inode ip).type ≠ .dir then
        iput ip
        pure (-1)
      else
        iput ((← get).cwd p)
        modify fun s => { s with cwd := Function.update s.cwd p ip }
        pure 0

/-- `sys_pipe`: a pipe's two files at the first two free descriptors of `p`; `copyOk` says
whether both descriptors could be copied out to the user's array. -/
def sysPipe (p : ι) (kallocOk copyOk : Bool) : FsM ι ℤ := do
  match ← pipealloc kallocOk with
  | none => pure (-1)
  | some (rf, wf) =>
    match ← fdalloc p rf with
    | none =>
      fileclose rf
      fileclose wf
      pure (-1)
    | some fd0 =>
      match ← fdalloc p wf with
      | none =>
        modify fun s => { s with
          ofile := Function.update s.ofile p (Function.update (s.ofile p) fd0 none) }
        fileclose rf
        fileclose wf
        pure (-1)
      | some fd1 =>
        if copyOk then pure 0
        else
          modify fun s => { s with
            ofile := Function.update s.ofile p (Function.update (s.ofile p) fd0 none) }
          modify fun s => { s with
            ofile := Function.update s.ofile p (Function.update (s.ofile p) fd1 none) }
          fileclose rf
          fileclose wf
          pure (-1)

/-- The part of `sys_exec` the file system sees: once the arguments are fetched (`argsOk`),
`exec` looks the path up, locks its inode, reads the image from it (`loaded` says whether that
and the new memory succeed) and puts the inode back on every path; it changes no open file and
no directory. -/
def sysExec (p : ι) (path : List Char) (argsOk loaded : Bool) : FsM ι ℤ := do
  if maxPath ≤ path.length then pure (-1)
  else if !argsOk then pure (-1)
  else
    match ← namei ((← get).cwd p) path with
    | none => pure (-1)
    | some ip =>
      ilock ip
      iput ip
      pure (if loaded then 0 else -1)

/-- The part of `fork` the file system sees: the child `c` shares the parent's open files and
current directory.  `-1` when the slot is in use; the model keeps no pids and returns `0`. -/
def fork (p c : ι) : FsM ι ℤ := do
  let s ← get
  if s.live c then pure (-1)
  else
    (List.finRange nofile).forM fun fd =>
      match s.ofile p fd with
      | some f => filedup f
      | none => pure ()
    idup (s.cwd p)
    modify fun s => { s with
      live := Function.update s.live c true
      ofile := Function.update s.ofile c (s.ofile p)
      cwd := Function.update s.cwd c (s.cwd p) }
    pure 0

/-- The part of `exit` the file system sees: close every open file, drop the current directory,
and free the slot; `initproc` may not exit. -/
def exit (initproc p : ι) : FsM ι Unit := do
  if p = initproc then throw "init exiting"
  else
    (List.finRange nofile).forM fun fd => do
      match (← get).ofile p fd with
      | some f =>
        fileclose f
        modify fun s => { s with
          ofile := Function.update s.ofile p (Function.update (s.ofile p) fd none) }
      | none => pure ()
    iput ((← get).cwd p)
    modify fun s => { s with cwd := Function.update s.cwd p 0, live := Function.update s.live p false }

/-! ### The system -/

/-- A system call, with the arguments the file system reads. -/
inductive Call (ι : Type)
  | open (path : List Char) (omode : ℕ)
  | write (fd : ℕ) (n : ℤ) (ok : ℕ → Bool) (dev : ℤ)
  | close (fd : ℕ)
  | dup (fd : ℕ)
  | link (old new : List Char)
  | unlink (path : List Char)
  | mkdir (path : List Char)
  | mknod (path : List Char) (major : ℤ)
  | chdir (path : List Char)
  | pipe (kallocOk copyOk : Bool)
  | exec (path : List Char) (argsOk loaded : Bool)
  | fork (c : ι)
  | exit

/-- System call `c` of process `p`. -/
def syscall (initproc p : ι) : Call ι → FsM ι ℤ
  | .open path omode => sysOpen p path omode
  | .write fd n ok dev => sysWrite p fd n ok dev
  | .close fd => sysClose p fd
  | .dup fd => sysDup p fd
  | .link old new => sysLink p old new
  | .unlink path => sysUnlink p path
  | .mkdir path => sysMkdir p path
  | .mknod path major => sysMknod p path major
  | .chdir path => sysChdir p path
  | .pipe kallocOk copyOk => sysPipe p kallocOk copyOk
  | .exec path argsOk loaded => sysExec p path argsOk loaded
  | .fork c => fork p c
  | .exit => do
    exit initproc p
    pure 0

/-- One system call of a live process, run to completion; `none` when the process is not live
or the call panics. -/
def step (initproc : ι) (s : Sys ι) : ι × Call ι → Option (Sys ι)
  | (p, c) =>
    if s.live p then
      match (syscall initproc p c).run s with
      | .ok (_, s') => some s'
      | .error _ => none
    else none

/-- An invariant that every system call of a live process keeps, whatever the errors it may
raise, is kept by every step. -/
theorem step_inv {I : Sys ι → Prop} {bad : String → Prop} {initproc : ι}
    (h : ∀ p c, Triple bad (fun s => I s ∧ s.live p = true) (syscall initproc p c) fun _ => I)
    {s s' : Sys ι} {a : ι × Call ι} (hs : I s) (hstep : step initproc s a = some s') : I s' := by
  obtain ⟨p, c⟩ := a
  by_cases hp : s.live p
  · rw [step, if_pos hp] at hstep
    rcases hr : (syscall initproc p c).run s with e | ⟨r, s''⟩
    · rw [hr] at hstep
      cases hstep
    · rw [hr] at hstep
      cases hstep
      exact (h p c).run_ok ⟨hs, hp⟩ hr
  · rw [step, if_neg hp] at hstep
    cases hstep

/-- The state `userinit` leaves on disk `d`: `initproc` live in the root directory
(`namei("/")`, not yet locked), no open file. -/
def init (d : Disk) (initproc : ι) : Sys ι where
  disk := d
  ref := Function.update (fun _ => 0) rootIno 1
  valid := fun _ => false
  file := fun _ => ⟨.none, 0, false, false, 0, 0, 0⟩
  live := fun p => decide (p = initproc)
  cwd := fun p => if p = initproc then rootIno else 0
  ofile := fun _ _ => none

/-- The image `mkfs` writes with no input file: the root directory (inode `ROOTINO`, one link)
holds `.` and `..` in the first data block, its size rounded up to a whole block, and the bitmap
marks the blocks up to that one.  There is no indirect block. -/
def mkfsImage : Disk where
  used b := decide (b < nMeta + 1)
  inode i :=
    if i = rootIno then ⟨.dir, 0, 1, bsize, fun j => if j = 0 then nMeta else 0⟩
    else ⟨.free, 0, 0, 0, fun _ => 0⟩
  ind _ _ := 0
  dir i k :=
    if i = rootIno ∧ k = 0 then ⟨rootIno, ['.']⟩
    else if i = rootIno ∧ k = 1 then ⟨rootIno, ['.', '.']⟩
    else ⟨0, []⟩

end Xv6.Fs
