import Xv6.Fs.Syscall
import Xv6.Lib.Family

/-!
# Reference counts of files and inodes (`kernel/file.c`, `kernel/fs.c`)

Between system calls the `ref` of every `struct file` is the number of descriptors of live
processes that name it, and the `ref` of every inode is the number of open inode and device files
on it plus the number of live processes whose current directory it is.  A call holds references
of its own while it runs (the inode `namei` returned, a file `filealloc` gave out that no
descriptor names yet) and may drop a reference before it drops the thing that held it.
`Counted A B F G` is the equation with what the call holds beyond the count (`A` of inodes, `F`
of files) and what it has dropped ahead of it (`B`, `G`); each operation is a triple that says
how it moves them, and every system call starts and ends with all four empty.

* `Sys.slots`, `Sys.fileRefs`, `Sys.cwdRefs`: the counts, and `Counted.set_file`,
  `Counted.set_slot`, `Counted.set_cwd`, `Counted.spawn`, `Counted.retire`: how a write moves them;
* `iget_counted` … `namei_counted`, `create_counted`: the inode table and path names;
* `filealloc_counted`, `filedup_counted`, `fileclose_counted`, `pipealloc_counted`,
  `fdalloc_counted`: the file table and the descriptors, with the frames `iput_procs`,
  `fileclose_procs`, `fdalloc_files` for what each leaves alone;
* `sysOpen_counted` … `exit_counted`, `syscall_counted`: every system call of a live process,
  failure paths included, ends with the counts exact;
* `refs_of_reachable`: so does every reachable state, where a file nobody refers to has type
  `FD_NONE` and the file of a descriptor has count one exactly when no other descriptor names it.
-/

namespace Xv6.Fs

variable {ι : Type} [Fintype ι]

/-! ### The counts -/

/-- The descriptors of table `t` that name file `f`. -/
def naming (t : Fin nofile → Option (Fin nfile)) (f : Fin nfile) : ℕ :=
  ∑ fd, if t fd = some f then 1 else 0

/-- The descriptors of live processes that name file `f`. -/
def Sys.slots (s : Sys ι) (f : Fin nfile) : ℕ :=
  ∑ p, if s.live p then naming (s.ofile p) f else 0

/-- A file holds inode `k`: an inode or device file on `k` (`fileclose` puts it back). -/
def File.Holds (ff : File) (k : ℕ) : Prop :=
  (ff.type = .inode ∨ ff.type = .device) ∧ ff.ip = k

instance (ff : File) (k : ℕ) : Decidable (ff.Holds k) :=
  inferInstanceAs (Decidable (_ ∧ _))

/-- The files that hold inode `k`. -/
def Sys.fileRefs (s : Sys ι) (k : ℕ) : ℕ :=
  ∑ f, if (s.file f).Holds k then 1 else 0

/-- The live processes whose current directory is `k`. -/
def Sys.cwdRefs (s : Sys ι) (k : ℕ) : ℕ :=
  ∑ p, if s.live p ∧ s.cwd p = k then 1 else 0

/-- The reference counts, as many as the things that hold each file and inode, give or take what
a running call holds beyond them (`A` of inodes, `F` of files) and what it has dropped ahead of
the thing that held it (`B`, `G`).  A file nobody refers to has type `FD_NONE`. -/
structure Counted (A B : List ℕ) (F G : List (Fin nfile)) (s : Sys ι) : Prop where
  files : ∀ f, (s.file f).ref + G.count f = s.slots f + F.count f
  closed : ∀ f, (s.file f).ref = 0 → (s.file f).type = .none
  inodes : ∀ k, s.ref k + B.count k = s.fileRefs k + s.cwdRefs k + A.count k

/-- The counts while a call of process `p` runs, which stays live throughout. -/
def Running (p : ι) (A B : List ℕ) (F G : List (Fin nfile)) (s : Sys ι) : Prop :=
  Counted A B F G s ∧ s.live p = true

/-- What the processes hold: which are live, their directories and their descriptors.  The inode
and file tables leave it alone. -/
def Sys.procs (s : Sys ι) : (ι → Bool) × (ι → ℕ) × (ι → Fin nofile → Option (Fin nfile)) :=
  (s.live, s.cwd, s.ofile)

/-- Descriptors of process `p` that a call has filled: distinct, each naming its file. -/
def Named (p : ι) (S : List (Fin nofile × Fin nfile)) (s : Sys ι) : Prop :=
  (S.map Prod.fst).Nodup ∧ ∀ x ∈ S, s.ofile p x.1 = some x.2

/-! ### How the counts move -/

section Counts

/-- Setting one descriptor moves the count of the file it named and of the one it names. -/
theorem naming_update (t : Fin nofile → Option (Fin nfile)) (fd : Fin nofile)
    (o : Option (Fin nfile)) (f : Fin nfile) :
    naming (Function.update t fd o) f + (if t fd = some f then 1 else 0) =
      naming t f + (if o = some f then 1 else 0) := by
  have h := Family.sum_add_of_ne (fun j => if t j = some f then 1 else 0)
    (fun j => if Function.update t fd o j = some f then 1 else 0) fd
    fun j hj => by rw [Function.update_of_ne hj]
  rw [Function.update_self] at h
  exact h

/-- The descriptors that name `f`, counted in the list of the files a table names, in order. -/
theorem naming_eq_count (t : Fin nofile → Option (Fin nfile)) (f : Fin nfile) :
    naming t f = ((List.finRange nofile).filterMap t).count f := by
  rw [naming, Fin.sum_univ_def]
  induction List.finRange nofile with
  | nil => rfl
  | cons fd l ih =>
    rw [List.map_cons, List.sum_cons, ih, List.filterMap_cons]
    rcases t fd with _ | g
    · simp
    · by_cases hg : g = f
      · simp [hg]
        omega
      · simp [hg]

/-- A table with no descriptor in use names nothing. -/
theorem naming_of_none {t : Fin nofile → Option (Fin nfile)} (ht : ∀ fd, t fd = none)
    (f : Fin nfile) : naming t f = 0 :=
  Finset.sum_eq_zero fun fd _ => by simp [ht fd]

/-- A change of the liveness or the descriptors of one process `q` alone. -/
theorem slots_of_ne [DecidableEq ι] {s t : Sys ι} (q : ι)
    (hq : ∀ r, r ≠ q → t.live r = s.live r ∧ t.ofile r = s.ofile r) (f : Fin nfile) :
    t.slots f + (if s.live q then naming (s.ofile q) f else 0) =
      s.slots f + (if t.live q then naming (t.ofile q) f else 0) :=
  Family.sum_add_of_ne (fun r => if s.live r then naming (s.ofile r) f else 0)
    (fun r => if t.live r then naming (t.ofile r) f else 0) q
    fun r hr => by rw [(hq r hr).1, (hq r hr).2]

omit [Fintype ι] in
/-- A change of one file `f` alone. -/
theorem fileRefs_of_ne {s t : Sys ι} (f : Fin nfile) (hfile : ∀ g, g ≠ f → t.file g = s.file g)
    (k : ℕ) :
    t.fileRefs k + (if (s.file f).Holds k then 1 else 0) =
      s.fileRefs k + (if (t.file f).Holds k then 1 else 0) :=
  Family.sum_add_of_ne (fun g => if (s.file g).Holds k then 1 else 0)
    (fun g => if (t.file g).Holds k then 1 else 0) f fun g hg => by rw [hfile g hg]

/-- A change of the liveness or the directory of one process `p` alone. -/
theorem cwdRefs_of_ne [DecidableEq ι] {s t : Sys ι} (p : ι)
    (hq : ∀ q, q ≠ p → t.live q = s.live q ∧ t.cwd q = s.cwd q) (k : ℕ) :
    t.cwdRefs k + (if s.live p ∧ s.cwd p = k then 1 else 0) =
      s.cwdRefs k + (if t.live p ∧ t.cwd p = k then 1 else 0) :=
  Family.sum_add_of_ne (fun q => if s.live q ∧ s.cwd q = k then 1 else 0)
    (fun q => if t.live q ∧ t.cwd q = k then 1 else 0) p
    fun q hq' => by rw [(hq q hq').1, (hq q hq').2]

variable {A B : List ℕ} {F G : List (Fin nfile)} {s : Sys ι}

theorem Counted.cancel_inode {k : ℕ} (h : Counted (k :: A) (k :: B) F G s) : Counted A B F G s :=
  ⟨h.files, h.closed, fun j => by have := h.inodes j; simp only [List.count_cons] at this; omega⟩

theorem Counted.cancel_file {f : Fin nfile} (h : Counted A B (f :: F) (f :: G) s) :
    Counted A B F G s :=
  ⟨fun g => by have := h.files g; simp only [List.count_cons] at this; omega, h.closed, h.inodes⟩

/-- One more reference to inode `k`, held by the call. -/
theorem Counted.incr (h : Counted A B F G s) (k : ℕ) (v : ℕ → Bool) :
    Counted (k :: A) B F G { s with ref := Function.update s.ref k (s.ref k + 1), valid := v } := by
  refine ⟨h.files, h.closed, fun j => ?_⟩
  show Function.update s.ref k (s.ref k + 1) j + B.count j = s.fileRefs j + s.cwdRefs j + _
  have := h.inodes j
  rcases eq_or_ne j k with rfl | hj
  · simp only [Function.update_self, List.count_cons_self]
    omega
  · simp only [Function.update_of_ne hj, List.count_cons, beq_iff_eq, Ne.symm hj, if_false,
      add_zero]
    exact this

/-- One reference fewer to inode `k`, dropped by the call. -/
theorem Counted.decr (h : Counted A B F G s) {k : ℕ} (hk : 0 < s.ref k) :
    Counted A (k :: B) F G { s with ref := Function.update s.ref k (s.ref k - 1) } := by
  refine ⟨h.files, h.closed, fun j => ?_⟩
  show Function.update s.ref k (s.ref k - 1) j + _ = s.fileRefs j + s.cwdRefs j + A.count j
  have := h.inodes j
  rcases eq_or_ne j k with rfl | hj
  · simp only [Function.update_self, List.count_cons_self]
    omega
  · simp only [Function.update_of_ne hj, List.count_cons, beq_iff_eq, Ne.symm hj, if_false,
      add_zero]
    exact this

/-- A reference the call holds is counted. -/
theorem Counted.ref_pos {k : ℕ} (h : Counted (k :: A) B F G s) (hk : k ∉ B) : 0 < s.ref k := by
  have := h.inodes k
  rw [List.count_cons_self, List.count_eq_zero_of_not_mem hk] at this
  omega

/-- Only how often each inode and file occurs in the lists matters. -/
theorem Counted.perm {A' : List ℕ} (h : Counted A B F G s) (hA : A.Perm A') :
    Counted A' B F G s :=
  ⟨h.files, h.closed, fun k => by rw [← hA.count_eq]; exact h.inodes k⟩

/-- The counts read neither the disk nor the `valid` bits. -/
theorem Running.congr {p : ι} {s' : Sys ι} (h : Running p A B F G s) (hr : s'.ref = s.ref)
    (hf : s'.file = s.file) (hl : s'.live = s.live) (hc : s'.cwd = s.cwd)
    (ho : s'.ofile = s.ofile) : Running p A B F G s' := by
  obtain ⟨_, r, _, fl, l, c, o⟩ := s
  obtain ⟨_, r', _, fl', l', c', o'⟩ := s'
  dsimp only at hr hf hl hc ho
  subst hr hf hl hc ho
  exact ⟨⟨h.1.files, h.1.closed, h.1.inodes⟩, h.2⟩

end Counts

/-! ### The inode table and path names -/

section Itable

variable {p : ι} {A B : List ℕ} {F G : List (Fin nfile)}

theorem iget_counted (k : ℕ) :
    Triple (fun _ => False) (Running p A B F G) (iget k : FsM ι Unit)
      fun _ => Running p (k :: A) B F G :=
  Triple.modify fun _ hs => ⟨hs.1.incr k _, hs.2⟩

theorem idup_counted (k : ℕ) :
    Triple (fun _ => False) (Running p A B F G) (idup k : FsM ι Unit)
      fun _ => Running p (k :: A) B F G :=
  Triple.modify fun s hs => ⟨hs.1.incr k s.valid, hs.2⟩

theorem ilock_counted (k : ℕ) :
    Triple (fun _ => False) (Running p A B F G) (ilock k : FsM ι Unit)
      fun _ => Running p A B F G := by
  refine Triple.get_bind fun s₀ => ?_
  refine Triple.ite (fun _ => Triple.throw id) fun _ => ?_
  refine Triple.ite (fun _ => Triple.pure fun _ hs => hs.1) fun _ => ?_
  refine Triple.ite (fun _ => Triple.throw id) fun _ => Triple.set ?_
  rintro s ⟨hs, rfl⟩
  exact hs.congr rfl rfl rfl rfl rfl

/-- `iput` drops one reference, whether or not it frees the inode. -/
theorem iput_counted (k : ℕ) :
    Triple (fun _ => False) (fun s => Running p A B F G s ∧ 0 < s.ref k) (iput k : FsM ι Unit)
      fun _ => Running p A (k :: B) F G := by
  refine Triple.get_bind fun s₀ => ?_
  have hdrop : Triple (fun _ => False) (fun s => Running p A B F G s ∧ 0 < s.ref k)
      (modify fun s => { s with ref := Function.update s.ref k (s.ref k - 1) } : FsM ι Unit)
      fun _ => Running p A (k :: B) F G :=
    Triple.modify fun _ hs => ⟨hs.1.1.decr hs.2, hs.1.2⟩
  dsimp only
  refine Triple.ite (fun _ => ?_) fun _ => hdrop.conseq (fun s hs => hs.1) fun _ _ h => h
  -- freeing the inode writes the disk and `valid` alone
  refine Triple.bind (Q := fun _ s => Running p A B F G s ∧ 0 < s.ref k)
    (onDisk_triple fun s hs => ⟨fun _ _ => id, fun _ _ _ => ?_⟩) fun _ =>
      (Triple.modify fun _ hs => ⟨hs.1.congr rfl rfl rfl rfl rfl, hs.2⟩).bind fun _ => hdrop
  exact ⟨hs.1.1.congr rfl rfl rfl rfl rfl, hs.1.2⟩

/-- `iput` of a reference the call holds. -/
theorem iput_held (k : ℕ) :
    Triple (fun _ => False) (Running p (k :: A) [] F G) (iput k : FsM ι Unit)
      fun _ => Running p A [] F G :=
  (iput_counted k).conseq (fun _ hs => ⟨hs, hs.1.ref_pos List.not_mem_nil⟩)
    fun _ _ hs => ⟨hs.1.cancel_inode, hs.2⟩

theorem ialloc_counted (type : IType) :
    Triple (fun _ => False) (Running p A B F G) (ialloc type : FsM ι (Option ℕ))
      fun r => Running p (r.toList ++ A) B F G := by
  refine Triple.get_bind fun s₀ => ?_
  split
  · exact Triple.pure fun _ hs => hs.1
  · refine (Triple.set (Q := fun _ => Running p A B F G) ?_).bind fun _ =>
      (iget_counted _).bind fun _ => Triple.pure fun _ hs => hs
    rintro _ ⟨hs, rfl⟩
    exact hs.congr rfl rfl rfl rfl rfl

theorem iupdate_counted (k : ℕ) (f : Dinode → Dinode) :
    Triple (fun _ => False) (Running p A B F G) (iupdate k f : FsM ι Unit)
      fun _ => Running p A B F G :=
  Triple.modify fun _ hs => hs.congr rfl rfl rfl rfl rfl

theorem onDisk_counted {α : Type} (f : Disk → Except String (Disk × α)) :
    Triple (fun _ => False) (Running p A B F G) (onDisk f : FsM ι α)
      fun _ => Running p A B F G :=
  onDisk_triple fun _ hs => ⟨fun _ _ => id, fun _ _ _ => hs.congr rfl rfl rfl rfl rfl⟩

/-- `dirlookup` holds the inode it finds. -/
theorem dirlookup_counted (dp : ℕ) (name : List Char) :
    Triple (fun _ => False) (Running p A B F G) (dirlookup dp name : FsM ι (Option (ℕ × ℕ)))
      fun r => Running p ((r.map Prod.fst).toList ++ A) B F G := by
  refine Triple.get_bind fun s₀ => ?_
  refine Triple.ite (fun _ => Triple.throw id) fun _ => ?_
  split
  · exact Triple.pure fun _ hs => hs.1
  · exact ((iget_counted _).conseq (fun _ hs => hs.1) fun _ _ h => h).bind fun _ =>
      Triple.pure fun _ hs => hs

/-- `dirlink` puts back an inode it finds under the name. -/
theorem dirlink_counted (dp : ℕ) (name : List Char) (inum : ℕ) :
    Triple (fun _ => False) (Running p A [] F G) (dirlink dp name inum : FsM ι ℤ)
      fun _ => Running p A [] F G := by
  refine (dirlookup_counted dp name).bind fun r => ?_
  rcases r with _ | ⟨ip, _⟩
  · refine Triple.get_bind fun s₀ => ?_
    refine ((onDisk_counted _).conseq (fun _ hs => hs.1) fun _ _ h => h).bind fun _ => ?_
    exact Triple.ite (fun _ => Triple.pure fun _ hs => hs) fun _ =>
      (Triple.modify fun _ hs => hs.congr rfl rfl rfl rfl rfl).bind fun _ =>
        Triple.pure fun _ hs => hs
  · exact (iput_held ip).bind fun _ => Triple.pure fun _ hs => hs

/-- The loop of `namex`, started on an inode the call holds, holds the inode it returns and no
other. -/
theorem namexLoop_counted (parent : Bool) :
    ∀ (fuel ip : ℕ) (path : List Char),
      Triple (fun _ => False) (Running p (ip :: A) [] F G)
        (namexLoop parent fuel ip path : FsM ι _)
        fun r => Running p ((r.map Prod.fst).toList ++ A) [] F G := by
  -- the loop's end
  have hdone : ∀ ip, Triple (fun _ => False) (Running p (ip :: A) [] F G)
      (namexLoop.done parent ip : FsM ι (Option (ℕ × List Char)))
      fun r => Running p ((r.map Prod.fst).toList ++ A) [] F G := fun ip => by
    unfold namexLoop.done
    exact Triple.ite (fun _ => (iput_held ip).bind fun _ => Triple.pure fun _ hs => hs)
      fun _ => Triple.pure fun _ hs => hs
  intro fuel
  induction fuel with
  | zero => exact fun ip _ => hdone ip
  | succ fuel ih =>
    intro ip path
    unfold namexLoop
    split
    · refine (ilock_counted ip).bind fun _ => Triple.get_bind fun s₀ => ?_
      refine Triple.ite (fun _ => ((iput_held ip).conseq (fun _ hs => hs.1) fun _ _ h => h).bind
        fun _ => Triple.pure fun _ hs => hs) fun _ => ?_
      refine Triple.ite (fun _ => Triple.pure fun _ hs => hs.1) fun _ => ?_
      refine ((dirlookup_counted ip _).conseq (fun _ hs => hs.1) fun _ _ h => h).bind
        fun r => ?_
      rcases r with _ | ⟨next, _⟩
      · exact (iput_held ip).bind fun _ => Triple.pure fun _ hs => hs
      · -- `ip` is put back while `next` is held
        refine ((iput_held ip).conseq (fun _ hs => ⟨hs.1.perm (List.Perm.swap _ _ _), hs.2⟩)
          fun _ _ h => h).bind fun _ => ih next _
    · exact hdone ip

theorem namex_counted (cwd : ℕ) (path : List Char) (parent : Bool) :
    Triple (fun _ => False) (Running p A [] F G) (namex cwd path parent : FsM ι _)
      fun r => Running p ((r.map Prod.fst).toList ++ A) [] F G := by
  unfold namex
  exact Triple.ite (fun _ => (iget_counted _).bind fun _ => namexLoop_counted parent _ _ _)
    fun _ => (idup_counted _).bind fun _ => namexLoop_counted parent _ _ _

/-- `namei` holds the inode it returns. -/
theorem namei_counted (cwd : ℕ) (path : List Char) :
    Triple (fun _ => False) (Running p A [] F G) (namei cwd path : FsM ι (Option ℕ))
      fun r => Running p (r.toList ++ A) [] F G :=
  (namex_counted cwd path false).bind fun _ => Triple.pure fun _ hs => hs

theorem nameiparent_counted (cwd : ℕ) (path : List Char) :
    Triple (fun _ => False) (Running p A [] F G) (nameiparent cwd path : FsM ι _)
      fun r => Running p ((r.map Prod.fst).toList ++ A) [] F G :=
  namex_counted cwd path true

/-- The links of a new inode put back every inode they look up. -/
theorem createLinks_counted (ip dp : ℕ) (name : List Char) (type : IType) :
    Triple (fun _ => False) (Running p A [] F G) (createLinks ip dp name type : FsM ι Bool)
      fun _ => Running p A [] F G := by
  unfold createLinks
  extract_lets link
  have hlink : ∀ dots, Triple (fun _ => False) (Running p A [] F G) (link dots)
      fun _ => Running p A [] F G := fun dots =>
    Triple.ite (fun _ => (dirlink_counted dp name ip).bind fun _ => Triple.pure fun _ hs => hs)
      fun _ => Triple.pure fun _ hs => hs
  refine Triple.ite (fun _ => ?_) fun _ => (Triple.pure fun _ hs => hs).bind hlink
  refine (dirlink_counted ip ['.'] ip).bind fun r => ?_
  refine Triple.ite (fun _ => (Triple.pure fun _ hs => hs).bind hlink) fun _ => ?_
  exact (dirlink_counted ip ['.', '.'] dp).bind fun _ => (Triple.pure fun _ hs => hs).bind hlink

/-- `create` holds the inode it returns, and no other. -/
theorem create_counted (cwd : ℕ) (path : List Char) (type : IType) (major : ℤ) :
    Triple (fun _ => False) (Running p A [] F G) (create cwd path type major : FsM ι (Option ℕ))
      fun r => Running p (r.toList ++ A) [] F G := by
  unfold create
  refine (nameiparent_counted cwd path).bind fun r => ?_
  rcases r with _ | ⟨dp, name⟩
  · exact Triple.pure fun _ hs => hs
  refine (ilock_counted dp).bind fun _ => (dirlookup_counted dp name).bind fun r => ?_
  rcases r with _ | ⟨ip, _⟩
  · -- a new inode, held beside `dp`
    refine (ialloc_counted type).bind fun r => ?_
    rcases r with _ | ip
    · exact (iput_held dp).bind fun _ => Triple.pure fun _ hs => hs
    refine (ilock_counted ip).bind fun _ => (iupdate_counted ip _).bind fun _ => ?_
    refine (createLinks_counted ip dp name type).bind fun b => Triple.ite (fun _ => ?_) fun _ => ?_
    · -- linked: `dp` is put back, and `ip` returned
      extract_lets ret
      have hret : ∀ u, Triple (fun _ => False) (Running p (ip :: dp :: A) [] F G) (ret u)
          fun r => Running p (r.toList ++ A) [] F G := fun _ =>
        ((iput_held dp).conseq (fun _ hs => ⟨hs.1.perm (List.Perm.swap _ _ _), hs.2⟩)
          fun _ _ h => h).bind fun _ => Triple.pure fun _ hs => hs
      exact Triple.ite (fun _ => (iupdate_counted dp _).bind hret) fun _ => hret ()
    · -- not linked: `ip` is de-allocated
      exact (iupdate_counted ip _).bind fun _ => (iput_held ip).bind fun _ =>
        (iput_held dp).bind fun _ => Triple.pure fun _ hs => hs
  · -- the inode `path` names already
    refine ((iput_held dp).conseq (fun _ hs => ⟨hs.1.perm (List.Perm.swap _ _ _), hs.2⟩)
      fun _ _ h => h).bind fun _ => (ilock_counted ip).bind fun _ => Triple.get_bind fun _ => ?_
    refine Triple.ite (fun _ => Triple.pure fun _ hs => hs.1) fun _ => ?_
    exact ((iput_held ip).conseq (fun _ hs => hs.1) fun _ _ h => h).bind fun _ =>
      Triple.pure fun _ hs => hs

/-! The inode table leaves the processes alone. -/

omit [Fintype ι] in
theorem idup_procs (k : ℕ) (R : _ → Prop) :
    Triple (fun _ => False) (fun s => R (Sys.procs s)) (idup k : FsM ι Unit)
      fun _ s => R s.procs :=
  Triple.modify fun _ hs => hs

omit [Fintype ι] in
theorem iput_procs (k : ℕ) (R : _ → Prop) :
    Triple (fun _ => False) (fun s => R (Sys.procs s)) (iput k : FsM ι Unit)
      fun _ s => R s.procs := by
  refine Triple.get_bind fun _ => ?_
  dsimp only
  refine Triple.ite (fun _ => ?_) fun _ => Triple.modify fun _ hs => hs.1
  refine Triple.bind (Q := fun _ s => R s.procs)
    (onDisk_triple fun _ hs => ⟨fun _ _ => id, fun _ _ _ => hs.1⟩) fun _ => ?_
  exact Triple.bind (Q := fun _ s => R s.procs) (Triple.modify fun _ hs => hs) fun _ =>
    Triple.modify fun _ hs => hs

end Itable

/-! ### The file table -/

section Files

variable {A B : List ℕ} {F G : List (Fin nfile)} {s : Sys ι}

/-- A descriptor of a live process counts. -/
theorem slots_pos {p : ι} {fd : Fin nofile} {f : Fin nfile} (hp : s.live p = true)
    (hfd : s.ofile p fd = some f) : 0 < s.slots f := by
  have h : 0 < naming (s.ofile p) f :=
    Finset.sum_pos' (fun _ _ => Nat.zero_le _) ⟨fd, Finset.mem_univ _, by simp [hfd]⟩
  exact Finset.sum_pos' (fun _ _ => Nat.zero_le _) ⟨p, Finset.mem_univ _, by simpa [hp] using h⟩

/-- Setting file `f` to `ff`: `F'` and `G'` balance the change of its count, `A'` that of the
inode it holds. -/
theorem Counted.set_file (h : Counted A B F G s) {f : Fin nfile} {ff : File} {A' : List ℕ}
    {F' G' : List (Fin nfile)}
    (hF : ∀ g, g ≠ f → F'.count g + G.count g = F.count g + G'.count g)
    (hf : ff.ref + G'.count f + F.count f = (s.file f).ref + G.count f + F'.count f)
    (hclosed : ff.ref = 0 → ff.type = .none)
    (hA : ∀ k, (if ff.Holds k then 1 else 0) + A'.count k =
      (if (s.file f).Holds k then 1 else 0) + A.count k) :
    Counted A' B F' G' { s with file := Function.update s.file f ff } := by
  refine ⟨fun g => ?_, fun g => ?_, fun k => ?_⟩
  · show (Function.update s.file f ff g).ref + _ = s.slots g + _
    have := h.files g
    rcases eq_or_ne g f with rfl | hg
    · rw [Function.update_self]
      omega
    · have := hF g hg
      rw [Function.update_of_ne hg]
      omega
  · rcases eq_or_ne g f with rfl | hg
    · simpa only [Function.update_self] using hclosed
    · simpa only [Function.update_of_ne hg] using h.closed g
  · have hr := fileRefs_of_ne (t := { s with file := Function.update s.file f ff }) f
      (fun g hg => Function.update_of_ne hg _ _) k
    simp only [Function.update_self] at hr
    have := h.inodes k
    have := hA k
    show s.ref k + _ = _ + s.cwdRefs k + _
    omega

omit [Fintype ι] in
theorem File.holds_iff {ff ff' : File} (htype : ff.type = ff'.type) (hip : ff.ip = ff'.ip)
    (k : ℕ) : ff.Holds k ↔ ff'.Holds k := by
  simp only [File.Holds, htype, hip]

/-- One more reference to file `f`, held by the call. -/
theorem Counted.file_incr (h : Counted A B F G s) {f : Fin nfile} {ff : File}
    (href : ff.ref = (s.file f).ref + 1) (htype : ff.type = (s.file f).type)
    (hip : ff.ip = (s.file f).ip) :
    Counted A B (f :: F) G { s with file := Function.update s.file f ff } :=
  h.set_file (fun g hg => by simp [Ne.symm hg]) (by simp [href]; omega)
    (by omega) fun k => by simp only [File.holds_iff htype hip k]

/-- File `f` changed in nothing the counts read. -/
theorem Counted.file_same (h : Counted A B F G s) {f : Fin nfile} {ff : File}
    (href : ff.ref = (s.file f).ref) (htype : ff.type = (s.file f).type)
    (hip : ff.ip = (s.file f).ip) :
    Counted A B F G { s with file := Function.update s.file f ff } :=
  h.set_file (fun _ _ => rfl) (by rw [href]) (fun h0 => htype ▸ h.closed f (href ▸ h0))
    fun k => by simp only [File.holds_iff htype hip k]

/-- File `f`, open and holding no inode, turned into another such file. -/
theorem Counted.file_bare (h : Counted A B F G s) {f : Fin nfile} {ff : File}
    (href : ff.ref = (s.file f).ref) (hpos : ff.ref ≠ 0) (hold : ∀ k, ¬ (s.file f).Holds k)
    (hnew : ∀ k, ¬ ff.Holds k) :
    Counted A B F G { s with file := Function.update s.file f ff } :=
  h.set_file (fun _ _ => rfl) (by rw [href]) (fun h0 => absurd h0 hpos)
    fun k => by simp only [hold k, hnew k, if_false]

/-- Only how often each file occurs in the lists matters. -/
theorem Counted.perm_held {F' : List (Fin nfile)} (h : Counted A B F G s) (hF : F.Perm F') :
    Counted A B F' G s :=
  ⟨fun f => by rw [← hF.count_eq]; exact h.files f, h.closed, h.inodes⟩

/-- A file the call holds, or a descriptor of a live process names, is open. -/
theorem Counted.ref_pos_of_held (h : Counted A B F [] s) {f : Fin nfile}
    (hf : 0 < s.slots f + F.count f) : 0 < (s.file f).ref := by
  have := h.files f
  rw [List.count_nil] at this
  omega

/-- Setting descriptor `fd` of live process `p` to `o`: `F'` and `G'` balance the change. -/
theorem Counted.set_slot (h : Counted A B F G s) {p : ι} [DecidableEq ι] (hp : s.live p = true)
    (fd : Fin nofile) (o : Option (Fin nfile)) {F' G' : List (Fin nfile)}
    (hF : ∀ g, (if o = some g then 1 else 0) + F'.count g + G.count g =
      (if s.ofile p fd = some g then 1 else 0) + F.count g + G'.count g) :
    Counted A B F' G'
      { s with ofile := Function.update s.ofile p (Function.update (s.ofile p) fd o) } := by
  refine ⟨fun g => ?_, h.closed, h.inodes⟩
  have hs := slots_of_ne (s := s) (t := { s with
    ofile := Function.update s.ofile p (Function.update (s.ofile p) fd o) }) p
    (fun q hq => ⟨rfl, Function.update_of_ne hq _ _⟩) g
  simp only [Function.update_self, hp, if_true] at hs
  have hn := naming_update (s.ofile p) fd o g
  have := h.files g
  have := hF g
  show (s.file g).ref + _ = _ + _
  omega

/-- A live process's directory counts. -/
theorem cwdRefs_pos {p : ι} (hp : s.live p = true) : 0 < s.cwdRefs (s.cwd p) :=
  Finset.sum_pos' (fun _ _ => Nat.zero_le _) ⟨p, Finset.mem_univ _, by simp [hp]⟩

/-- The directory of a live process is referenced. -/
theorem Counted.cwd_ref_pos (h : Counted A [] F G s) {p : ι} (hp : s.live p = true) :
    0 < s.ref (s.cwd p) := by
  have hk := h.inodes (s.cwd p)
  have := cwdRefs_pos hp
  rw [List.count_nil] at hk
  omega

/-- Live process `p` moves to directory `k`: the reference the call held on `k` is now the
process's, and the one it dropped on the old directory is gone with it. -/
theorem Counted.set_cwd [DecidableEq ι] {p : ι} {k : ℕ} (h : Counted (k :: A) (s.cwd p :: B) F G s)
    (hp : s.live p = true) :
    Counted A B F G { s with cwd := Function.update s.cwd p k } := by
  refine ⟨h.files, h.closed, fun j => ?_⟩
  have hc := cwdRefs_of_ne (s := s) (t := { s with cwd := Function.update s.cwd p k }) p
    (fun q hq => ⟨rfl, Function.update_of_ne hq _ _⟩) j
  simp only [Function.update_self, hp, true_and] at hc
  have := h.inodes j
  simp only [List.count_cons, beq_iff_eq] at this
  show s.ref j + _ = s.fileRefs j + _ + _
  split_ifs at hc this <;> omega

/-- Process `c`, not live, starts with the descriptors and the directory of `p`, and takes over
the references the call took on them. -/
theorem Counted.spawn [DecidableEq ι] {p c : ι}
    (h : Counted [s.cwd p] [] ((List.finRange nofile).filterMap (s.ofile p)) [] s)
    (hc : s.live c = false) :
    Counted [] [] [] [] { s with
      live := Function.update s.live c true
      ofile := Function.update s.ofile c (s.ofile p)
      cwd := Function.update s.cwd c (s.cwd p) } := by
  refine ⟨fun g => ?_, h.closed, fun k => ?_⟩
  · have hs := slots_of_ne (s := s) (t := { s with
        live := Function.update s.live c true
        ofile := Function.update s.ofile c (s.ofile p)
        cwd := Function.update s.cwd c (s.cwd p) }) c
      (fun q hq => ⟨Function.update_of_ne hq _ _, Function.update_of_ne hq _ _⟩) g
    simp only [Function.update_self, hc, Bool.false_eq_true, if_false, if_true, add_zero] at hs
    have hf := h.files g
    rw [← naming_eq_count, List.count_nil, add_zero] at hf
    show (s.file g).ref + 0 = _ + 0
    omega
  · have hk := cwdRefs_of_ne (s := s) (t := { s with
        live := Function.update s.live c true
        ofile := Function.update s.ofile c (s.ofile p)
        cwd := Function.update s.cwd c (s.cwd p) }) c
      (fun q hq => ⟨Function.update_of_ne hq _ _, Function.update_of_ne hq _ _⟩) k
    simp only [Function.update_self, hc, Bool.false_eq_true, false_and, if_false, true_and,
      add_zero] at hk
    have hi := h.inodes k
    simp only [List.count_singleton, List.count_nil, add_zero, beq_iff_eq] at hi
    show s.ref k + 0 = s.fileRefs k + _ + 0
    split_ifs at hk hi <;> omega

/-- Live process `p`, with no descriptor left, goes: the reference the call dropped on its
directory is gone with it. -/
theorem Counted.retire [DecidableEq ι] {p : ι} (h : Counted [] [s.cwd p] [] [] s)
    (hp : s.live p = true) (hfd : ∀ fd, s.ofile p fd = none) (k : ℕ) :
    Counted [] [] [] [] { s with
      cwd := Function.update s.cwd p k
      live := Function.update s.live p false } := by
  refine ⟨fun g => ?_, h.closed, fun j => ?_⟩
  · have hs := slots_of_ne (s := s) (t := { s with
        cwd := Function.update s.cwd p k
        live := Function.update s.live p false }) p
      (fun q hq => ⟨Function.update_of_ne hq _ _, rfl⟩) g
    simp only [Function.update_self, hp, naming_of_none hfd, Bool.false_eq_true, if_false,
      if_true, add_zero] at hs
    have hf := h.files g
    rw [List.count_nil, add_zero, add_zero] at hf
    show (s.file g).ref + 0 = _ + 0
    omega
  · have hj := cwdRefs_of_ne (s := s) (t := { s with
        cwd := Function.update s.cwd p k
        live := Function.update s.live p false }) p
      (fun q hq => ⟨Function.update_of_ne hq _ _, Function.update_of_ne hq _ _⟩) j
    simp only [Function.update_self, hp, true_and, Bool.false_eq_true, false_and, if_false,
      add_zero] at hj
    have hi := h.inodes j
    simp only [List.count_singleton, List.count_nil, add_zero, beq_iff_eq] at hi
    show s.ref j + 0 = s.fileRefs j + _ + 0
    split_ifs at hj hi <;> omega

/-- The descriptors of live processes that name `f`, as a set of pairs. -/
theorem slots_eq_card (f : Fin nfile) :
    s.slots f = (Finset.univ.filter fun x : ι × Fin nofile =>
      s.live x.1 = true ∧ s.ofile x.1 x.2 = some f).card := by
  rw [Finset.card_filter, Fintype.sum_prod_type]
  refine Finset.sum_congr rfl fun q _ => ?_
  by_cases hq : s.live q = true
  · simp [hq, naming]
  · simp [hq]

/-- A descriptor of a live process is the only one naming its file exactly when the file has one
such descriptor. -/
theorem slots_eq_one_iff {p : ι} {fd : Fin nofile} {f : Fin nfile} (hp : s.live p = true)
    (hfd : s.ofile p fd = some f) :
    s.slots f = 1 ↔
      ∀ q fd', s.live q = true → s.ofile q fd' = some f → q = p ∧ fd' = fd := by
  rw [slots_eq_card]
  have hmem : (p, fd) ∈ Finset.univ.filter fun x : ι × Fin nofile =>
      s.live x.1 = true ∧ s.ofile x.1 x.2 = some f := by simp [hp, hfd]
  constructor
  · intro h q fd' hq hq'
    exact Prod.ext_iff.mp (Finset.card_le_one.mp h.le (q, fd') (by simp [hq, hq']) (p, fd) hmem)
  · intro h
    refine le_antisymm (Finset.card_le_one.mpr fun a ha b hb => ?_)
      (Finset.card_pos.mpr ⟨_, hmem⟩)
    simp only [Finset.mem_filter, Finset.mem_univ, true_and] at ha hb
    obtain ⟨ha₁, ha₂⟩ := h a.1 a.2 ha.1 ha.2
    obtain ⟨hb₁, hb₂⟩ := h b.1 b.2 hb.1 hb.2
    exact Prod.ext (ha₁.trans hb₁.symm) (ha₂.trans hb₂.symm)

omit [Fintype ι] in
theorem named_nil (p : ι) : Named p [] s :=
  ⟨List.nodup_nil, fun _ h => absurd h List.not_mem_nil⟩

omit [Fintype ι] in
/-- The descriptor `argfd` finds names its file. -/
theorem argfd_named {p : ι} {fd : ℕ} {x : Fin nofile × Fin nfile} (h : argfd s p fd = some x) :
    Named p [x] s := by
  unfold argfd at h
  split_ifs at h
  obtain ⟨f, hf, rfl⟩ := Option.map_eq_some_iff.mp h
  exact ⟨List.nodup_singleton _, fun y hy => by rw [List.mem_singleton.mp hy]; exact hf⟩

omit [Fintype ι] in
theorem Named.perm {p : ι} {S S' : List (Fin nofile × Fin nfile)} (h : Named p S s)
    (hS : S.Perm S') : Named p S' s :=
  ⟨(hS.map Prod.fst).nodup_iff.mp h.1, fun x hx => h.2 x (hS.mem_iff.mpr hx)⟩

omit [Fintype ι] in
/-- A free descriptor filled with `f`. -/
theorem Named.fill [DecidableEq ι] {p : ι} {S : List (Fin nofile × Fin nfile)} (h : Named p S s)
    {fd : Fin nofile} (hfd : s.ofile p fd = none) (f : Fin nfile) :
    Named p ((fd, f) :: S)
      { s with ofile := Function.update s.ofile p (Function.update (s.ofile p) fd (some f)) } := by
  -- the descriptors filled before are not free
  have hne : ∀ x ∈ S, x.1 ≠ fd := fun x hx he => by
    have := h.2 x hx
    rw [he, hfd] at this
    cases this
  refine ⟨List.nodup_cons.mpr ⟨fun hm => ?_, h.1⟩, fun x hx => ?_⟩
  · obtain ⟨x, hx, he⟩ := List.mem_map.mp hm
    exact hne x hx he
  · show Function.update s.ofile p _ p x.1 = _
    rw [Function.update_self]
    rcases List.mem_cons.mp hx with rfl | hx
    · exact Function.update_self _ _ _
    · rw [Function.update_of_ne (hne x hx)]
      exact h.2 x hx

omit [Fintype ι] in
/-- The first descriptor filled is cleared; the others still name their files. -/
theorem Named.clear [DecidableEq ι] {p : ι} {x : Fin nofile × Fin nfile}
    {S : List (Fin nofile × Fin nfile)} (h : Named p (x :: S) s) :
    Named p S
      { s with ofile := Function.update s.ofile p (Function.update (s.ofile p) x.1 none) } := by
  obtain ⟨hx, hS⟩ := List.nodup_cons.mp h.1
  refine ⟨hS, fun y hy => ?_⟩
  have hne : y.1 ≠ x.1 := fun he => hx (he ▸ List.mem_map_of_mem hy)
  show Function.update s.ofile p _ p y.1 = _
  rw [Function.update_self, Function.update_of_ne hne]
  exact h.2 y (List.mem_cons_of_mem _ hy)

end Files

/-! ### Open files -/

section OpenFiles

variable {p : ι} {A B : List ℕ} {F G : List (Fin nfile)}

/-- `filealloc` gives out a file the call then holds; it and the files `N` hold no inode. -/
theorem filealloc_counted (N : List (Fin nfile)) :
    Triple (fun _ => False)
      (fun s => Running p A B F G s ∧ ∀ g ∈ N, ∀ k, ¬ (s.file g).Holds k)
      (filealloc : FsM ι (Option (Fin nfile)))
      fun r s => Running p A B (r.toList ++ F) G s ∧
        ∀ g ∈ r.toList ++ N, ∀ k, ¬ (s.file g).Holds k := by
  refine Triple.get_bind fun s₀ => ?_
  split
  · exact Triple.pure fun _ hs => hs.1
  rename_i f hf
  have h0 : (s₀.file f).ref = 0 := by simpa using List.find?_some hf
  refine (Triple.set (Q := fun _ s => Running p A B (f :: F) G s ∧
    ∀ g ∈ f :: N, ∀ k, ¬ (s.file g).Holds k) ?_).bind fun _ => Triple.pure fun _ hs => hs
  rintro _ ⟨⟨⟨hs, hlive⟩, hN⟩, rfl⟩
  -- a file with no reference is closed
  have hnone := hs.closed f h0
  refine ⟨⟨hs.file_incr (by simp [h0]) rfl rfl, hlive⟩, fun g hg k hk => ?_⟩
  rcases eq_or_ne g f with rfl | hgf
  · simp [File.Holds, hnone] at hk
  · rw [List.mem_cons] at hg
    refine hN g (hg.resolve_left hgf) k ?_
    simpa [Function.update_of_ne hgf] using hk

theorem filedup_counted (f : Fin nfile) :
    Triple (fun _ => False) (Running p A B F G) (filedup f : FsM ι Unit)
      fun _ => Running p A B (f :: F) G := by
  refine Triple.get_bind fun s₀ => Triple.ite (fun _ => Triple.throw id) fun _ => Triple.set ?_
  rintro _ ⟨⟨hs, hlive⟩, rfl⟩
  exact ⟨hs.file_incr rfl rfl rfl, hlive⟩

/-- `fileclose` drops a reference; the last one puts back the inode the file held. -/
theorem fileclose_counted (f : Fin nfile) :
    Triple (fun _ => False) (Running p A [] F G) (fileclose f : FsM ι Unit)
      fun _ => Running p A [] F (f :: G) := by
  refine Triple.get_bind fun s₀ => ?_
  dsimp only
  refine Triple.ite (fun _ => Triple.throw id) fun hpos => Triple.ite (fun hmore => ?_)
    fun hlast => ?_
  · refine Triple.set ?_
    rintro _ ⟨⟨hs, hlive⟩, rfl⟩
    refine ⟨hs.set_file (fun g hg => by simp [Ne.symm hg]) (by simp; omega) (by simp; omega)
      fun k => rfl, hlive⟩
  -- the last reference: the file is closed, and the inode it held is the call's to put back
  refine Triple.bind (Q := fun _ => Running p
    (if (s₀.file f).type = .inode ∨ (s₀.file f).type = .device then (s₀.file f).ip :: A else A)
    [] F (f :: G)) (Triple.set ?_) fun _ => Triple.ite (fun hheld => ?_) fun hheld => ?_
  · rintro s ⟨⟨hs, hlive⟩, rfl⟩
    refine ⟨hs.set_file (fun g hg => by simp [Ne.symm hg]) (by simp; omega) (fun _ => rfl)
      fun k => ?_, hlive⟩
    by_cases hheld : (s.file f).type = .inode ∨ (s.file f).type = .device
    · simp [File.Holds, hheld, List.count_cons]
      omega
    · simp [File.Holds, hheld]
  · exact (iput_held _).conseq (fun _ hs => by rwa [if_pos hheld] at hs) fun _ _ h => h
  · exact Triple.pure fun _ hs => by rwa [if_neg hheld] at hs

/-- Closing a file the call holds. -/
theorem fileclose_held (f : Fin nfile) :
    Triple (fun _ => False) (Running p A [] (f :: F) []) (fileclose f : FsM ι Unit)
      fun _ => Running p A [] F [] :=
  (fileclose_counted f).conseq (fun _ hs => hs) fun _ _ hs => ⟨hs.1.cancel_file, hs.2⟩

omit [Fintype ι] in
theorem filedup_procs (f : Fin nfile) (R : _ → Prop) :
    Triple (fun _ => False) (fun s => R (Sys.procs s)) (filedup f : FsM ι Unit)
      fun _ s => R s.procs :=
  Triple.get_bind fun _ => Triple.ite (fun _ => Triple.throw id) fun _ =>
    Triple.set fun _ hs => by obtain ⟨h, rfl⟩ := hs; exact h

omit [Fintype ι] in
theorem fileclose_procs (f : Fin nfile) (R : _ → Prop) :
    Triple (fun _ => False) (fun s => R (Sys.procs s)) (fileclose f : FsM ι Unit)
      fun _ s => R s.procs := by
  refine Triple.get_bind fun s₀ => ?_
  dsimp only
  have hset : ∀ ff, Triple (fun _ => False) (fun s => R s.procs ∧ s = s₀)
      (set { s₀ with file := Function.update s₀.file f ff } : FsM ι PUnit)
      fun _ s => R s.procs := fun _ => Triple.set fun _ hs => by obtain ⟨h, rfl⟩ := hs; exact h
  refine Triple.ite (fun _ => Triple.throw id) fun _ => Triple.ite (fun _ => hset _) fun _ => ?_
  exact (hset _).bind fun _ => Triple.ite (fun _ => iput_procs _ R) fun _ =>
    Triple.pure fun _ hs => hs

theorem filewriteLoop_counted (f : Fin nfile) (n : ℕ) (ok : ℕ → Bool) :
    ∀ fuel i, Triple (fun _ => False) (Running p A B F G) (filewriteLoop f n ok fuel i : FsM ι ℕ)
      fun _ => Running p A B F G := by
  intro fuel
  induction fuel with
  | zero => exact fun i => Triple.pure fun _ hs => hs
  | succ fuel ih =>
    intro i
    unfold filewriteLoop
    refine Triple.ite (fun _ => ?_) fun _ => Triple.pure fun _ hs => hs
    refine Triple.get_bind fun s₀ => ((ilock_counted _).conseq (fun s hs => hs.1)
      fun _ _ h => h).bind fun _ => Triple.get_bind fun s₁ => ?_
    refine ((onDisk_counted _).conseq (fun s hs => hs.1) fun _ _ h => h).bind fun r => ?_
    -- the offset moves on, then the loop goes on or stops
    have hrest : Triple (fun _ => False) (Running p A B F G)
        (if r ≠ ↑(min (n - i) maxWrite) then pure i
          else filewriteLoop f n ok fuel (i + min (n - i) maxWrite) : FsM ι ℕ)
        fun _ => Running p A B F G :=
      Triple.ite (fun _ => Triple.pure fun _ hs => hs) fun _ => ih _
    refine Triple.ite (fun _ => ?_) fun _ => hrest
    exact (Triple.modify fun _ hs => ⟨hs.1.file_same rfl rfl rfl, hs.2⟩).bind fun _ => hrest

theorem filewrite_counted (f : Fin nfile) (n : ℤ) (ok : ℕ → Bool) (dev : ℤ) :
    Triple (fun _ => False) (Running p A B F G) (filewrite f n ok dev : FsM ι ℤ)
      fun _ => Running p A B F G := by
  refine Triple.get_bind fun s₀ => ?_
  refine Triple.ite (fun _ => Triple.pure fun _ hs => hs.1) fun _ => ?_
  split
  · exact Triple.pure fun _ hs => hs.1
  · exact ((filewriteLoop_counted f _ ok _ 0).conseq (fun _ hs => hs.1) fun _ _ h => h).bind
      fun _ => Triple.pure fun _ hs => hs
  · exact Triple.pure fun _ hs => hs.1
  · exact Triple.throw id

/-- `pipealloc` gives out two files the call holds, neither holding an inode; on failure it has
closed what it took. -/
theorem pipealloc_counted (kallocOk : Bool) :
    Triple (fun _ => False) (Running p A [] F [])
      (pipealloc kallocOk : FsM ι (Option (Fin nfile × Fin nfile)))
      fun r => Running p A [] (r.elim [] (fun fs => [fs.1, fs.2]) ++ F) [] := by
  unfold pipealloc
  refine ((filealloc_counted []).conseq (fun s hs => ⟨hs, fun _ h => absurd h List.not_mem_nil⟩)
    fun _ _ h => h).bind fun r => ?_
  rcases r with _ | f0
  · exact Triple.pure fun _ hs => hs.1
  refine (filealloc_counted [f0]).bind fun r => ?_
  rcases r with _ | f1
  · exact ((fileclose_held f0).conseq (fun _ hs => hs.1) fun _ _ h => h).bind fun _ =>
      Triple.pure fun _ hs => hs
  refine Triple.ite (fun _ => ?_) fun _ => ?_
  · -- both files become pipe ends, which hold no inode
    refine (Triple.modify (Q := fun _ s => Running p A [] (f1 :: f0 :: F) [] s ∧
      ∀ k, ¬ (s.file f1).Holds k) ?_).bind fun _ =>
        (Triple.modify (Q := fun _ => Running p A [] (f1 :: f0 :: F) []) ?_).bind fun _ =>
          Triple.pure fun _ hs => ⟨hs.1.perm_held (List.Perm.swap _ _ _), hs.2⟩
    · rintro s ⟨⟨hs, hlive⟩, hbare⟩
      have hpos : 0 < (s.file f0).ref := hs.ref_pos_of_held (by simp)
      refine ⟨⟨hs.file_bare rfl hpos.ne' (hbare f0 (by simp)) fun k h => ?_, hlive⟩,
        fun k h => ?_⟩
      · simp [File.Holds] at h
      · rcases eq_or_ne f1 f0 with rfl | hne
        · simp [File.Holds] at h
        · simp only [Function.update_of_ne hne] at h
          exact hbare f1 (by simp) k h
    · rintro s ⟨⟨hs, hlive⟩, hbare⟩
      have hpos : 0 < (s.file f1).ref := hs.ref_pos_of_held (by simp)
      exact ⟨hs.file_bare rfl hpos.ne' hbare fun k h => by simp [File.Holds] at h, hlive⟩
  · -- no pipe: both files are closed again
    refine ((fileclose_held f0).conseq (fun _ hs => ⟨hs.1.1.perm_held (List.Perm.swap _ _ _),
      hs.1.2⟩) fun _ _ h => h).bind fun _ => (fileclose_held f1).bind fun _ =>
        Triple.pure fun _ hs => hs

end OpenFiles

/-! ### System calls that change no descriptor -/

section InodeCalls

variable {p : ι}

theorem sysWrite_counted (fd : ℕ) (n : ℤ) (ok : ℕ → Bool) (dev : ℤ) :
    Triple (fun _ => False) (Running p [] [] [] []) (sysWrite p fd n ok dev : FsM ι ℤ)
      fun _ => Running p [] [] [] [] := by
  refine Triple.get_bind fun s₀ => ?_
  split
  · exact Triple.pure fun _ hs => hs.1
  · exact (filewrite_counted _ n ok dev).conseq (fun _ hs => hs.1) fun _ _ h => h

theorem sysLink_counted (old new : List Char) :
    Triple (fun _ => False) (Running p [] [] [] []) (sysLink p old new : FsM ι ℤ)
      fun _ => Running p [] [] [] [] := by
  unfold sysLink
  refine Triple.ite (fun _ => Triple.pure fun _ hs => hs) fun _ => Triple.get_bind fun s₀ => ?_
  extract_lets cwd
  refine ((namei_counted cwd old).conseq (fun s hs => hs.1) fun _ _ h => h).bind fun r => ?_
  rcases r with _ | ip
  · exact Triple.pure fun _ hs => hs
  refine (ilock_counted ip).bind fun _ => Triple.get_bind fun s₁ => ?_
  refine Triple.ite (fun _ => ((iput_held ip).conseq (fun _ hs => hs.1) fun _ _ h => h).bind
    fun _ => Triple.pure fun _ hs => hs) fun _ => ?_
  refine ((iupdate_counted ip _).conseq (fun s hs => hs.1) fun _ _ h => h).bind fun _ => ?_
  extract_lets linked
  -- `ip` is put back, its link count restored when the new name failed
  have hlinked : ∀ b, Triple (fun _ => False) (Running p [ip] [] [] []) (linked b)
      fun _ => Running p [] [] [] [] := fun b =>
    Triple.ite (fun _ => (iput_held ip).bind fun _ => Triple.pure fun _ hs => hs) fun _ =>
      (ilock_counted ip).bind fun _ => (iupdate_counted ip _).bind fun _ =>
        (iput_held ip).bind fun _ => Triple.pure fun _ hs => hs
  refine (nameiparent_counted cwd new).bind fun r => ?_
  rcases r with _ | ⟨dp, name⟩
  · exact (Triple.pure fun _ hs => hs).bind hlinked
  exact (ilock_counted dp).bind fun _ => (dirlink_counted dp name ip).bind fun _ =>
    (iput_held dp).bind fun _ => (Triple.pure fun _ hs => hs).bind hlinked

theorem sysUnlink_counted (path : List Char) :
    Triple (fun _ => False) (Running p [] [] [] []) (sysUnlink p path : FsM ι ℤ)
      fun _ => Running p [] [] [] [] := by
  unfold sysUnlink
  refine Triple.ite (fun _ => Triple.pure fun _ hs => hs) fun _ => Triple.get_bind fun s₀ => ?_
  refine ((nameiparent_counted _ path).conseq (fun s hs => hs.1) fun _ _ h => h).bind fun r => ?_
  rcases r with _ | ⟨dp, name⟩
  · exact Triple.pure fun _ hs => hs
  have hputdp : Triple (fun _ => False) (Running p [dp] [] [] [])
      (do iput dp; pure (-1) : FsM ι ℤ) fun _ => Running p [] [] [] [] :=
    (iput_held dp).bind fun _ => Triple.pure fun _ hs => hs
  refine (ilock_counted dp).bind fun _ => Triple.ite (fun _ => hputdp) fun _ => ?_
  refine (dirlookup_counted dp name).bind fun r => ?_
  rcases r with _ | ⟨ip, off⟩
  · exact hputdp
  refine (ilock_counted ip).bind fun _ => Triple.get_bind fun s₁ => ?_
  -- the three join points of the body, innermost first
  extract_lets di drop clear check
  -- the link counts drop, and both inodes are put back
  have hdrop : ∀ u, Triple (fun _ => False) (Running p [ip, dp] [] [] []) (drop u)
      fun _ => Running p [] [] [] [] := fun _ =>
    ((iput_held dp).conseq (fun _ hs => ⟨hs.1.perm (List.Perm.swap _ _ _), hs.2⟩)
      fun _ _ h => h).bind fun _ => (iupdate_counted ip _).bind fun _ =>
        (iput_held ip).bind fun _ => Triple.pure fun _ hs => hs
  -- the entry is cleared
  have hclear : ∀ u, Triple (fun _ => False) (Running p [ip, dp] [] [] []) (clear u)
      fun _ => Running p [] [] [] [] := fun _ =>
    (Triple.modify (Q := fun _ => Running p [ip, dp] [] [] []) fun _ hs =>
      hs.congr rfl rfl rfl rfl rfl).bind fun _ =>
        Triple.ite (fun _ => (iupdate_counted dp _).bind hdrop) fun _ => hdrop ()
  refine Triple.ite (fun _ => Triple.throw_bind id) fun _ => ?_
  dsimp only [check]
  refine Triple.get_bind fun s₂ => Triple.ite (fun _ => ?_) fun _ => ?_
  · -- a directory that is not empty
    exact ((iput_held ip).conseq (fun _ hs => hs.1.1) fun _ _ h => h).bind fun _ => hputdp
  refine ((onDisk_counted _).conseq (fun s hs => hs.1.1) fun _ _ h => h).bind fun r => ?_
  exact Triple.ite (fun _ => Triple.throw_bind id) fun _ => hclear ()

/-- `mkdir` and `mknod`: `create`, then the new inode put back. -/
theorem create_put_counted (cwd : ℕ) (path : List Char) (type : IType) (major : ℤ) :
    Triple (fun _ => False) (Running p [] [] [] [])
      (do
        match ← create cwd path type major with
        | none => pure (-1)
        | some ip =>
          iput ip
          pure 0 : FsM ι ℤ) fun _ => Running p [] [] [] [] := by
  refine (create_counted cwd path type major).bind fun r => ?_
  rcases r with _ | ip
  · exact Triple.pure fun _ hs => hs
  · exact (iput_held ip).bind fun _ => Triple.pure fun _ hs => hs

theorem sysMkdir_counted (path : List Char) :
    Triple (fun _ => False) (Running p [] [] [] []) (sysMkdir p path : FsM ι ℤ)
      fun _ => Running p [] [] [] [] :=
  Triple.ite (fun _ => Triple.pure fun _ hs => hs) fun _ => Triple.get_bind fun _ =>
    (create_put_counted _ path .dir 0).conseq (fun _ hs => hs.1) fun _ _ h => h

theorem sysMknod_counted (path : List Char) (major : ℤ) :
    Triple (fun _ => False) (Running p [] [] [] []) (sysMknod p path major : FsM ι ℤ)
      fun _ => Running p [] [] [] [] :=
  Triple.ite (fun _ => Triple.pure fun _ hs => hs) fun _ => Triple.get_bind fun _ =>
    (create_put_counted _ path .device _).conseq (fun _ hs => hs.1) fun _ _ h => h

theorem sysExec_counted (path : List Char) (argsOk loaded : Bool) :
    Triple (fun _ => False) (Running p [] [] [] []) (sysExec p path argsOk loaded : FsM ι ℤ)
      fun _ => Running p [] [] [] [] := by
  unfold sysExec
  refine Triple.ite (fun _ => Triple.pure fun _ hs => hs) fun _ => ?_
  refine Triple.ite (fun _ => Triple.pure fun _ hs => hs) fun _ => Triple.get_bind fun s₀ => ?_
  refine ((namei_counted _ path).conseq (fun s hs => hs.1) fun _ _ h => h).bind fun r => ?_
  rcases r with _ | ip
  · exact Triple.pure fun _ hs => hs
  exact (ilock_counted ip).bind fun _ => (iput_held ip).bind fun _ => Triple.pure fun _ hs => hs

end InodeCalls

/-! ### Descriptors -/

section Descriptors

variable [DecidableEq ι] {p : ι} {A B : List ℕ} {F G : List (Fin nfile)}

/-- `fdalloc` fills a free descriptor of `p` with `f`, which is then named by it. -/
theorem fdalloc_counted (f : Fin nfile) (S : List (Fin nofile × Fin nfile)) :
    Triple (fun _ => False) (fun s => Running p A B F G s ∧ Named p S s)
      (fdalloc p f : FsM ι (Option (Fin nofile)))
      fun r s => match r with
        | none => Running p A B F G s ∧ Named p S s
        | some fd => Running p A B F (f :: G) s ∧ Named p ((fd, f) :: S) s := by
  refine Triple.get_bind fun s₀ => ?_
  split
  · exact Triple.pure fun _ hs => hs.1
  rename_i fd hfd
  have hnone : s₀.ofile p fd = none := by simpa using List.find?_some hfd
  refine (Triple.set (Q := fun _ s => Running p A B F (f :: G) s ∧ Named p ((fd, f) :: S) s)
    ?_).bind fun _ => Triple.pure fun _ hs => hs
  rintro _ ⟨⟨⟨hs, hlive⟩, hS⟩, rfl⟩
  refine ⟨⟨hs.set_slot hlive fd (some f) fun g => ?_, hlive⟩, hS.fill hnone f⟩
  rcases eq_or_ne g f with rfl | hg
  · simp [hnone]
    omega
  · simp [hnone, Ne.symm hg]

omit [Fintype ι] in
/-- `fdalloc` leaves the file table alone. -/
theorem fdalloc_files (f : Fin nfile) (R : (Fin nfile → File) → Prop) :
    Triple (fun _ => False) (fun s => R (Sys.file s)) (fdalloc p f : FsM ι (Option (Fin nofile)))
      fun _ s => R s.file := by
  refine Triple.get_bind fun s₀ => ?_
  split
  · exact Triple.pure fun _ hs => hs.1
  · exact (Triple.set fun _ hs => by obtain ⟨h, rfl⟩ := hs; exact h).bind fun _ =>
      Triple.pure fun _ hs => hs

/-- Clearing a descriptor the call filled: the call holds its file again. -/
theorem clear_counted (x : Fin nofile × Fin nfile) (S : List (Fin nofile × Fin nfile)) :
    Triple (fun _ => False) (fun s => Running p A B F G s ∧ Named p (x :: S) s)
      (modify fun s => { s with
        ofile := Function.update s.ofile p (Function.update (s.ofile p) x.1 none) } : FsM ι Unit)
      fun _ s => Running p A B (x.2 :: F) G s ∧ Named p S s := by
  refine Triple.modify fun s ⟨⟨hs, hlive⟩, hS⟩ => ⟨⟨hs.set_slot hlive x.1 none fun g => ?_, hlive⟩,
    hS.clear⟩
  rw [hS.2 x List.mem_cons_self]
  rcases eq_or_ne g x.2 with rfl | hg
  · simp
    omega
  · simp [Ne.symm hg]

/-! ### System calls that change descriptors -/

theorem sysClose_counted (fd : ℕ) :
    Triple (fun _ => False) (Running p [] [] [] []) (sysClose p fd : FsM ι ℤ)
      fun _ => Running p [] [] [] [] := by
  refine Triple.get_bind fun s₀ => ?_
  split
  · exact Triple.pure fun _ hs => hs.1
  rename_i fd' f hfd
  refine ((clear_counted (fd', f) []).conseq (fun s hs => ⟨hs.1, ?_⟩) fun _ _ h => h.1).bind
    fun _ => (fileclose_held f).bind fun _ => Triple.pure fun _ hs => hs
  rw [hs.2]
  exact argfd_named hfd

/-- `dup` takes its reference to the file after `fdalloc` has named it. -/
theorem sysDup_counted (fd : ℕ) :
    Triple (fun _ => False) (Running p [] [] [] []) (sysDup p fd : FsM ι ℤ)
      fun _ => Running p [] [] [] [] := by
  refine Triple.get_bind fun s₀ => ?_
  split
  · exact Triple.pure fun _ hs => hs.1
  rename_i fd' f hfd
  refine ((fdalloc_counted f []).conseq (fun s hs => ⟨hs.1, named_nil p⟩) fun _ _ h => h).bind
    fun r => ?_
  rcases r with _ | fd
  · exact Triple.pure fun _ hs => hs.1
  exact ((filedup_counted f).conseq (fun _ hs => hs.1) fun _ _ hs => ⟨hs.1.cancel_file, hs.2⟩).bind
    fun _ => Triple.pure fun _ hs => hs

/-- `open`: the new file takes over the reference to the inode that `create` or `namei`
returned. -/
theorem sysOpen_counted (path : List Char) (omode : ℕ) :
    Triple (fun _ => False) (Running p [] [] [] []) (sysOpen p path omode : FsM ι ℤ)
      fun _ => Running p [] [] [] [] := by
  unfold sysOpen
  refine Triple.ite (fun _ => Triple.pure fun _ hs => hs) fun _ => Triple.get_bind fun s₀ => ?_
  extract_lets cwd opened
  -- the file and its descriptor for an inode the call holds
  have hopened : ∀ ip?, Triple (fun _ => False) (Running p ip?.toList [] [] []) (opened ip?)
      fun _ => Running p [] [] [] [] := by
    intro ip?
    dsimp only [opened]
    rcases ip? with _ | ip
    · exact Triple.pure fun _ hs => hs
    have hput : Triple (fun _ => False) (Running p [ip] [] [] [])
        (do iput ip; pure (-1) : FsM ι ℤ) fun _ => Running p [] [] [] [] :=
      (iput_held ip).bind fun _ => Triple.pure fun _ hs => hs
    refine Triple.get_bind fun s₁ => ?_
    refine Triple.ite (fun _ => hput.conseq (fun s hs => hs.1) fun _ _ h => h) fun _ => ?_
    refine ((filealloc_counted []).conseq (fun s hs => ⟨hs.1, fun _ h => absurd h List.not_mem_nil⟩)
      fun _ _ h => h).bind fun r => ?_
    rcases r with _ | f
    · exact hput.conseq (fun _ hs => hs.1) fun _ _ h => h
    refine (((fdalloc_counted f []).and (fdalloc_files f fun fl => ∀ k, ¬ (fl f).Holds k)).conseq
      (fun s hs => ⟨⟨hs.1, named_nil p⟩, hs.2 f List.mem_cons_self⟩) fun _ _ h => h).bind
        fun r => ?_
    rcases r with _ | fd
    · exact ((fileclose_held f).conseq (fun _ hs => hs.1.1) fun _ _ h => h).bind fun _ => hput
    refine Triple.get_bind fun s₂ => (Triple.modify (Q := fun _ => Running p [] [] [] []) ?_).bind
      fun _ => ?_
    · rintro s ⟨⟨⟨⟨hs, hlive⟩, hS⟩, hbare⟩, rfl⟩
      have hc : Counted [ip] [] [] [] s := hs.cancel_file
      -- the descriptor names the file
      have hpos : 0 < (s.file f).ref := hc.ref_pos_of_held (by
        have := slots_pos hlive (hS.2 _ List.mem_cons_self)
        simp only [List.count_nil]
        omega)
      refine ⟨hc.set_file (fun _ _ => rfl) ?_ ?_ fun k => ?_, hlive⟩
      · split_ifs <;> rfl
      · intro h0
        split_ifs at h0 <;> simp only at h0 <;> omega
      · -- the file, which held no inode, now holds `ip`
        rw [if_neg (hbare k)]
        by_cases hdev : (s₁.disk.inode ip).type = .device
        · simp [hdev, File.Holds, List.count_cons]
        · simp [hdev, File.Holds, List.count_cons]
    · exact Triple.ite (fun _ => (onDisk_counted _).bind fun _ => Triple.pure fun _ hs => hs)
        fun _ => Triple.pure fun _ hs => hs
  refine Triple.ite (fun _ => ?_) fun _ => ?_
  · exact ((create_counted cwd path .file 0).conseq (fun s hs => hs.1)
      fun _ _ h => by rwa [List.append_nil] at h).bind hopened
  refine ((namei_counted cwd path).conseq (fun s hs => hs.1)
    fun _ _ h => by rwa [List.append_nil] at h).bind fun r => ?_
  rcases r with _ | ip
  · exact (Triple.pure (a := none) fun _ hs => hs).bind hopened
  refine (ilock_counted ip).bind fun _ => Triple.get_bind fun s₁ => ?_
  refine Triple.ite (fun _ => ?_) fun _ =>
    (Triple.pure (a := some ip) fun s hs => hs.1).bind hopened
  exact ((iput_held ip).conseq (fun _ hs => hs.1) fun _ _ h => h).bind
    fun _ => (Triple.pure (a := none) fun _ hs => hs).bind hopened

/-- `chdir` puts back the old directory before the process takes the new one. -/
theorem sysChdir_counted (path : List Char) :
    Triple (fun _ => False) (Running p [] [] [] []) (sysChdir p path : FsM ι ℤ)
      fun _ => Running p [] [] [] [] := by
  unfold sysChdir
  refine Triple.ite (fun _ => Triple.pure fun _ hs => hs) fun _ => Triple.get_bind fun s₀ => ?_
  refine ((namei_counted _ path).conseq (fun s hs => hs.1) fun _ _ h => h).bind fun r => ?_
  rcases r with _ | ip
  · exact Triple.pure fun _ hs => hs
  refine (ilock_counted ip).bind fun _ => Triple.get_bind fun s₁ => ?_
  refine Triple.ite (fun _ => ((iput_held ip).conseq (fun _ hs => hs.1) fun _ _ h => h).bind
    fun _ => Triple.pure fun _ hs => hs) fun _ => Triple.get_bind fun s₂ => ?_
  -- the old directory is put back, and the process still has it
  refine (((iput_counted (p := p) (A := [ip]) (B := []) (F := []) (G := []) (s₂.cwd p)).and
    (iput_procs (s₂.cwd p) fun π => π.2.1 p = s₂.cwd p)).conseq (fun s hs => ?_)
      fun _ _ h => h).bind fun _ => ?_
  · obtain ⟨⟨⟨hs, hlive⟩, -⟩, rfl⟩ := hs
    exact ⟨⟨⟨hs, hlive⟩, hs.cwd_ref_pos hlive⟩, rfl⟩
  refine (Triple.modify (Q := fun _ => Running p [] [] [] []) ?_).bind fun _ =>
    Triple.pure fun _ hs => hs
  rintro s ⟨⟨hs, hlive⟩, hcwd : s.cwd p = s₂.cwd p⟩
  rw [← hcwd] at hs
  exact ⟨hs.set_cwd hlive, hlive⟩

/-- `pipe`: each end the call holds is named by a descriptor, or closed again. -/
theorem sysPipe_counted (kallocOk copyOk : Bool) :
    Triple (fun _ => False) (Running p [] [] [] []) (sysPipe p kallocOk copyOk : FsM ι ℤ)
      fun _ => Running p [] [] [] [] := by
  unfold sysPipe
  have hclose : ∀ rf wf : Fin nfile, Triple (fun _ => False) (Running p [] [] [rf, wf] [])
      (do fileclose rf; fileclose wf; pure (-1) : FsM ι ℤ) fun _ => Running p [] [] [] [] :=
    fun rf wf => (fileclose_held rf).bind fun _ => (fileclose_held wf).bind fun _ =>
      Triple.pure fun _ hs => hs
  refine (pipealloc_counted kallocOk).bind fun r => ?_
  rcases r with _ | ⟨rf, wf⟩
  · exact Triple.pure fun _ hs => hs
  refine ((fdalloc_counted rf []).conseq (fun s hs => ⟨hs, named_nil p⟩) fun _ _ h => h).bind
    fun r => ?_
  rcases r with _ | fd0
  · exact (hclose rf wf).conseq (fun _ hs => hs.1) fun _ _ h => h
  refine ((fdalloc_counted wf [(fd0, rf)]).conseq
    (fun s hs => ⟨⟨hs.1.1.cancel_file, hs.1.2⟩, hs.2⟩) fun _ _ h => h).bind fun r => ?_
  rcases r with _ | fd1
  · -- the read end's descriptor is cleared again
    exact ((clear_counted (fd0, rf) []).conseq (fun _ hs => hs) fun _ _ h => h.1).bind fun _ =>
      hclose rf wf
  refine Triple.ite (fun _ => Triple.pure fun _ hs => ⟨hs.1.1.cancel_file, hs.1.2⟩) fun _ => ?_
  -- the copy-out failed: both descriptors are cleared again
  refine ((clear_counted (fd0, rf) [(fd1, wf)]).conseq
    (fun _ hs => ⟨⟨hs.1.1.cancel_file, hs.1.2⟩, hs.2.perm (List.Perm.swap _ _ _)⟩)
      fun _ _ h => h).bind fun _ => ?_
  exact Triple.bind (Q := fun _ => Running p [] [] [rf, wf] [])
    ((clear_counted (fd1, wf) []).conseq (fun _ hs => hs)
      fun _ _ h => ⟨h.1.1.perm_held (List.Perm.swap _ _ _), h.1.2⟩) fun _ => hclose rf wf

/-- `fork`: the loop takes a reference for each descriptor of the parent, and the child takes
them over with the parent's directory. -/
theorem fork_counted (c : ι) :
    Triple (fun _ => False) (Running p [] [] [] []) (fork p c : FsM ι ℤ)
      fun _ => Counted [] [] [] [] := by
  refine Triple.get_bind fun s₀ => Triple.ite (fun _ => Triple.pure fun _ hs => hs.1.1)
    fun hc => ?_
  -- after the descriptors `done`, the call holds the files they name
  let I : List (Fin nofile) → Sys ι → Prop := fun done s =>
    Running p [] [] (done.filterMap (s₀.ofile p)) [] s ∧ s.procs = s₀.procs
  refine ((Triple.forM_prefix I fun fd _ done => ?_).conseq (fun s hs => ⟨hs.1, by rw [hs.2]⟩)
    fun _ _ h => h).bind fun _ => ?_
  · split
    · rename_i f hf
      refine ((filedup_counted f).and (filedup_procs f fun π => π = s₀.procs)).conseq
        (fun _ hs => hs) fun _ _ hs => ⟨⟨hs.1.1.perm_held ?_, hs.1.2⟩, hs.2⟩
      rw [List.filterMap_append, List.filterMap_cons_some hf, List.filterMap_nil]
      exact (List.perm_append_singleton _ _).symm
    · rename_i hf
      exact Triple.pure fun _ hs => by
        simpa only [I, List.filterMap_append, List.filterMap_cons_none hf, List.filterMap_nil,
          List.append_nil] using hs
  -- the child's directory, then the child
  refine ((idup_counted (s₀.cwd p)).and (idup_procs (s₀.cwd p) fun π => π = s₀.procs)).bind
    fun _ => (Triple.modify ?_).bind fun _ => Triple.pure fun _ hs => hs
  rintro s ⟨⟨hs, -⟩, hprocs⟩
  have hlive : s.live = s₀.live := congrArg Prod.fst hprocs
  have hcwd : s.cwd = s₀.cwd := congrArg (fun π => π.2.1) hprocs
  have hofile : s.ofile = s₀.ofile := congrArg (fun π => π.2.2) hprocs
  rw [← hcwd, ← hofile] at hs
  exact hs.spawn (by rw [hlive]; simpa using hc)

/-- `exit` closes every descriptor of the process, then puts back its directory as the process
goes. -/
theorem exit_counted (initproc : ι) :
    Triple (fun _ => False) (Running p [] [] [] []) (exit initproc p : FsM ι Unit)
      fun _ => Counted [] [] [] [] := by
  refine Triple.ite (fun _ => Triple.throw id) fun _ => ?_
  -- after the descriptors `done`, those are free and the counts exact
  let I : List (Fin nofile) → Sys ι → Prop := fun done s =>
    Running p [] [] [] [] s ∧ ∀ fd ∈ done, s.ofile p fd = none
  refine ((Triple.forM_prefix I fun fd _ done => ?_).conseq
    (fun s hs => ⟨hs, fun _ h => absurd h List.not_mem_nil⟩) fun _ _ h => h).bind fun _ =>
      Triple.get_bind fun s₂ => ?_
  · refine Triple.get_bind fun s₁ => ?_
    split
    · rename_i f hf
      -- the file is closed while the descriptor still names it
      refine (((fileclose_counted (p := p) (A := []) (F := []) (G := []) f).and
        (fileclose_procs f fun π => π.2.2 p fd = some f ∧ ∀ fd' ∈ done, π.2.2 p fd' = none)).conseq
          (fun s hs => ?_) fun _ _ h => h).bind fun _ => Triple.modify ?_
      · obtain ⟨⟨hs, hdone⟩, rfl⟩ := hs
        exact ⟨hs, hf, hdone⟩
      rintro s ⟨⟨hs, hlive⟩, hfd, hdone⟩
      have hfd : s.ofile p fd = some f := hfd
      refine ⟨⟨hs.set_slot hlive fd none fun g => ?_, hlive⟩, fun fd' hfd' => ?_⟩
      · rw [hfd]
        rcases eq_or_ne g f with rfl | hg
        · simp
        · simp [Ne.symm hg]
      · show Function.update s.ofile p _ p fd' = none
        rw [Function.update_self]
        rcases eq_or_ne fd' fd with rfl | hne
        · exact Function.update_self _ _ _
        · rw [Function.update_of_ne hne]
          exact hdone fd' ((List.mem_append.mp hfd').resolve_right (by simpa using hne))
    · rename_i hf
      refine Triple.pure fun s hs => ⟨hs.1.1, fun fd' hfd' => ?_⟩
      rcases List.mem_append.mp hfd' with h | h
      · exact hs.1.2 fd' h
      · rw [List.mem_singleton.mp h, hs.2]
        exact hf
  -- the directory goes with the process
  refine (((iput_counted (p := p) (A := []) (B := []) (F := []) (G := []) (s₂.cwd p)).and
    (iput_procs (s₂.cwd p) fun π => π.2.1 p = s₂.cwd p ∧ ∀ fd, π.2.2 p fd = none)).conseq
      (fun s hs => ?_) fun _ _ h => h).bind fun _ => Triple.modify ?_
  · obtain ⟨⟨⟨hs, hlive⟩, hfd⟩, rfl⟩ := hs
    exact ⟨⟨⟨hs, hlive⟩, hs.cwd_ref_pos hlive⟩, rfl, fun fd => hfd fd (List.mem_finRange fd)⟩
  rintro s ⟨⟨hs, hlive⟩, hcwd, hfd⟩
  have hcwd : s.cwd p = s₂.cwd p := hcwd
  rw [← hcwd] at hs
  exact hs.retire hlive hfd 0

end Descriptors

/-! ### Runs -/

section Runs

variable [DecidableEq ι]

/-- Every system call of a live process ends with the counts exact. -/
theorem syscall_counted (initproc p : ι) (c : Call ι) :
    Triple (fun _ => False) (Running p [] [] [] []) (syscall initproc p c : FsM ι ℤ)
      fun _ => Counted [] [] [] [] := by
  -- the calls after which `p` is still live
  have hlive : ∀ {x : FsM ι ℤ}, Triple (fun _ => False) (Running p [] [] [] []) x
      (fun _ => Running p [] [] [] []) →
      Triple (fun _ => False) (Running p [] [] [] []) x fun _ => Counted [] [] [] [] :=
    fun hx => hx.conseq (fun _ hs => hs) fun _ _ hs => hs.1
  cases c with
  | «open» path omode => exact hlive (sysOpen_counted path omode)
  | write fd n ok dev => exact hlive (sysWrite_counted fd n ok dev)
  | close fd => exact hlive (sysClose_counted fd)
  | dup fd => exact hlive (sysDup_counted fd)
  | link old new => exact hlive (sysLink_counted old new)
  | unlink path => exact hlive (sysUnlink_counted path)
  | mkdir path => exact hlive (sysMkdir_counted path)
  | mknod path major => exact hlive (sysMknod_counted path major)
  | chdir path => exact hlive (sysChdir_counted path)
  | pipe kallocOk copyOk => exact hlive (sysPipe_counted kallocOk copyOk)
  | exec path argsOk loaded => exact hlive (sysExec_counted path argsOk loaded)
  | fork c => exact fork_counted c
  | exit => exact (exit_counted initproc).bind fun _ => Triple.pure fun _ hs => hs

/-- `userinit` leaves one reference, the directory of `initproc`. -/
theorem init_counted (d : Disk) (initproc : ι) : Counted [] [] [] [] (init d initproc) := by
  refine ⟨fun f => ?_, fun _ _ => rfl, fun k => ?_⟩
  · show 0 + 0 = (init d initproc).slots f + 0
    simp [Sys.slots, naming, init]
  · show Function.update (fun _ => 0) rootIno 1 k + 0 =
      (init d initproc).fileRefs k + (init d initproc).cwdRefs k + 0
    have hf : (init d initproc).fileRefs k = 0 := by simp [Sys.fileRefs, File.Holds, init]
    -- only `initproc` is live
    have hc : (init d initproc).cwdRefs k = if rootIno = k then 1 else 0 := by
      rw [Sys.cwdRefs, Finset.sum_eq_single initproc (fun q _ hq => by simp [init, hq])
        fun h => absurd (Finset.mem_univ _) h]
      simp [init]
    rw [hf, hc, Function.update_apply]
    rcases eq_or_ne rootIno k with rfl | hk
    · simp
    · simp [hk, Ne.symm hk]

/-- Between system calls, in every reachable state: the count of each file is the number of
descriptors of live processes that name it, a file with none is `FD_NONE`, and the count of each
inode is the number of inode and device files on it plus the number of live processes whose
directory it is.  So the file a descriptor names has count one exactly when no other descriptor
names it: `fileclose` releases the file, closing a pipe end or putting back its inode, when the
last descriptor goes. -/
theorem refs_of_reachable {d : Disk} {initproc : ι} {s : Sys ι}
    (hs : Steps.Reachable (step initproc) (init d initproc) s) :
    (∀ f, (s.file f).ref = s.slots f) ∧ (∀ f, (s.file f).ref = 0 → (s.file f).type = .none) ∧
      (∀ k, s.ref k = s.fileRefs k + s.cwdRefs k) ∧
      ∀ p fd f, s.live p = true → s.ofile p fd = some f →
        ((s.file f).ref = 1 ↔
          ∀ q fd', s.live q = true → s.ofile q fd' = some f → q = p ∧ fd' = fd) := by
  have hc : Counted [] [] [] [] s :=
    hs.inv (init_counted d initproc) fun _ _ _ h hstep =>
      step_inv (syscall_counted initproc) h hstep
  have hfiles : ∀ f, (s.file f).ref = s.slots f := fun f => by
    simpa only [List.count_nil, add_zero] using hc.files f
  refine ⟨hfiles, hc.closed, fun k => by simpa only [List.count_nil, add_zero] using hc.inodes k,
    fun p fd f hp hfd => ?_⟩
  rw [hfiles f]
  exact slots_eq_one_iff hp hfd

/-- After `open("/")` and `dup(0)` by `initproc`, the root directory's file has two references,
as many as the descriptors that name it. -/
theorem refs_after_open_dup :
    ∃ s, Steps.Reachable (step (0 : Fin 2)) (init mkfsImage 0) s ∧ (s.file 0).ref = 2 ∧
      (s.file 0).ref = s.slots 0 := by
  obtain ⟨s, hrun, href⟩ : ∃ s, Steps.run (step (0 : Fin 2)) (init mkfsImage 0)
      [(0, .open ['/'] 0), (0, .dup 0)] = some s ∧ (s.file 0).ref = 2 :=
    Steps.exists_of_any (by decide +kernel)
  have hs := Steps.reachable_of_run hrun
  exact ⟨s, hs, href, (refs_of_reachable hs).1 0⟩

end Runs

end Xv6.Fs
