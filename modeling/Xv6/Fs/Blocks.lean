import Xv6.Fs.Syscall

/-!
# The free bitmap under every system call

`BlockInv` (`Xv6.Fs.Disk`) says that the bitmap marks, among the data blocks, exactly the blocks
that allocated inodes hold, each of them once.  This file carries it through every system call
of `Xv6.Fs.Syscall`, one function at a time.

* `Good A s`: the block invariant, every valid entry of the inode table allocated, and the
  inodes `A` allocated; `A` is what a system call has locked and still relies on;
* one triple per function of the model (`ilock_good`, `iput_good`, `dirlink_good`,
  `namex_good`, `create_good`, `sysOpen_good`, ...), each proved from those of the functions it
  calls, with `bfree`'s panic as the error ruled out;
* `syscall_good`, and the results over whole runs: `blocks_of_reachable`, and
  `valid_allocated_of_reachable` (a valid entry of the inode table caches an allocated inode).

The functions that change the disk keep the invariant on their own (`BlockInv.writei`,
`BlockInv.itrunc`); what the system calls add is that they apply them only to allocated inodes,
which `ilock` checks and nothing in between frees.
-/

namespace Xv6.Fs

variable {ι : Type}

/-- `bfree`'s panic on a block already free. -/
def FreeingFree (e : String) : Prop := e = "freeing free block"

instance : DecidablePred FreeingFree := fun e => inferInstanceAs (Decidable (e = _))

/-- What a system call knows of the state: the block invariant, every valid entry of the inode
table allocated, and the inodes `A` allocated. -/
structure Good (A : List ℕ) (s : Sys ι) : Prop where
  blocks : BlockInv s.disk
  valid : ∀ k, s.valid k = true → s.disk.Allocated k
  held : ∀ k ∈ A, s.disk.Allocated k

section Good

variable {A B : List ℕ} {s s' : Sys ι}

theorem Good.mono (h : Good A s) (hB : ∀ k ∈ B, k ∈ A) : Good B s :=
  ⟨h.blocks, h.valid, fun k hk => h.held k (hB k hk)⟩

theorem Good.nil (h : Good A s) : Good [] s := h.mono fun _ hk => by cases hk

/-- A step that keeps the invariant of the blocks and every allocated inode allocated, and makes
no entry valid, keeps `Good`. -/
theorem Good.of_alloc (h : Good A s) (hb : BlockInv s'.disk)
    (halloc : ∀ k, s.disk.Allocated k → s'.disk.Allocated k)
    (hv : ∀ k, s'.valid k = true → s.valid k = true) : Good A s' :=
  ⟨hb, fun k hk => halloc k (h.valid k (hv k hk)), fun k hk => halloc k (h.held k hk)⟩

/-- The same when every inode keeps its type. -/
theorem Good.of_types (h : Good A s) (hb : BlockInv s'.disk)
    (htype : ∀ k, (s'.disk.inode k).type = (s.disk.inode k).type)
    (hv : ∀ k, s'.valid k = true → s.valid k = true) : Good A s' :=
  h.of_alloc hb (fun k hk => by unfold Disk.Allocated; rw [htype]; exact hk) hv

/-- A step that leaves the disk alone and makes no entry valid keeps `Good`. -/
theorem Good.congr (h : Good A s) (hd : s'.disk = s.disk)
    (hv : ∀ k, s'.valid k = true → s.valid k = true) : Good A s' :=
  h.of_types (hd ▸ h.blocks) (fun k => by rw [hd]) hv

/-- Writing back an inode with its type and addresses unchanged keeps `Good`. -/
theorem Good.setInode (h : Good A s) {k : ℕ} {ip : Dinode}
    (htype : ip.type = (s.disk.inode k).type) (haddrs : ip.addrs = (s.disk.inode k).addrs) :
    Good A { s with disk := s.disk.setInode k ip } := by
  refine h.of_types (h.blocks.congr (get_setInode_same _ htype haddrs) rfl) (fun j => ?_)
    fun _ hj => hj
  by_cases hj : j = k
  · subst hj
    simpa using htype
  · simp [Function.update_of_ne hj]

end Good

/-! ### The inode table -/

section Itable

variable (A : List ℕ) (k : ℕ)

theorem iget_good : Triple FreeingFree (Good A) (iget k : FsM ι Unit) fun _ => Good A :=
  Triple.modify fun s hs => hs.congr rfl fun j hj => by
    dsimp only at hj
    split_ifs at hj
    · by_cases hjk : j = k
      · subst hjk
        simp at hj
      · rwa [Function.update_of_ne hjk] at hj
    · exact hj

theorem idup_good : Triple FreeingFree (Good A) (idup k : FsM ι Unit) fun _ => Good A :=
  Triple.modify fun _ hs => hs.congr rfl fun _ hj => hj

/-- After `ilock k`, inode `k` is allocated. -/
theorem ilock_good : Triple FreeingFree (Good A) (ilock k : FsM ι Unit) fun _ => Good (k :: A) := by
  refine Triple.get_bind fun s₀ => ?_
  refine Triple.ite (fun _ => Triple.throw (by decide)) fun _ => ?_
  refine Triple.ite (fun hv => Triple.pure ?_) fun hv => ?_
  · -- a valid entry is allocated
    rintro s ⟨hs, rfl⟩
    exact ⟨hs.blocks, hs.valid, List.forall_mem_cons.2 ⟨hs.valid k hv, hs.held⟩⟩
  refine Triple.ite (fun _ => Triple.throw (by decide)) fun hfree => Triple.set ?_
  rintro s ⟨hs, rfl⟩
  refine ⟨hs.blocks, fun j hj => ?_, List.forall_mem_cons.2 ⟨hfree, hs.held⟩⟩
  by_cases hjk : j = k
  · subst hjk
    exact hfree
  · exact hs.valid j (by simpa [Function.update_of_ne hjk] using hj)

theorem iupdate_good {f : Dinode → Dinode} (htype : ∀ di, (f di).type = di.type)
    (haddrs : ∀ di, (f di).addrs = di.addrs) :
    Triple FreeingFree (Good A) (iupdate k f : FsM ι Unit) fun _ => Good A :=
  Triple.modify fun _ hs => hs.setInode (htype _) (haddrs _)

/-- `iput` keeps `Good` for the inodes other than `k`: only `k` may be freed, after `itrunc`
emptied it, and its entry is then no longer valid. -/
theorem iput_good (hk : k ∉ A) :
    Triple FreeingFree (Good A) (iput k : FsM ι Unit) fun _ => Good A := by
  refine Triple.get_bind fun s₀ => ?_
  have hput : Triple FreeingFree (Good A)
      (modify fun s => { s with ref := Function.update s.ref k (s.ref k - 1) } : FsM ι Unit)
      fun _ => Good A :=
    Triple.modify fun _ hs => hs.congr rfl fun _ hj => hj
  dsimp only
  refine Triple.ite (fun hfree => ?_) fun _ => hput.conseq (fun s hs => hs.1) fun _ _ h => h
  -- the free path: all of `Good` holds but for the entry of `k`, until it is invalidated
  refine Triple.bind (Q := fun _ s => BlockInv s.disk ∧
    (∀ j, s.valid j = true → j ≠ k → s.disk.Allocated j) ∧ ∀ j ∈ A, s.disk.Allocated j)
    (onDisk_triple fun s hs => ?_) fun _ => (Triple.modify ?_).bind fun _ => hput
  · obtain ⟨hs, rfl⟩ := hs
    obtain ⟨d, hd, hinv, hinode, -⟩ := hs.blocks.itrunc (hs.valid k hfree.2.1)
    -- the other inodes keep their types
    have halloc : ∀ j, j ≠ k → s.disk.Allocated j →
        (d.setInode k { d.inode k with type := .free }).Allocated j := fun j hj hal => by
      unfold Disk.Allocated at hal ⊢
      simpa [Function.update_of_ne hj, hinode] using hal
    rw [hd]
    refine ⟨fun e he => (by cases he), fun d' a h => ?_⟩
    simp only [Except.map, Except.ok.injEq, Prod.mk.injEq] at h
    obtain ⟨rfl, -⟩ := h
    refine ⟨hinv.setInode_empty (by simp [hinode]) (.inr (by simp [hinode])),
      fun j hj hjk => halloc j hjk (hs.valid j hj), fun j hjA => ?_⟩
    exact halloc j (fun h => hk (h ▸ hjA)) (hs.held j hjA)
  · rintro s ⟨hb, hv, hA⟩
    refine ⟨hb, fun j hj => ?_, hA⟩
    by_cases hjk : j = k
    · subst hjk
      simp at hj
    · exact hv j (by simpa [Function.update_of_ne hjk] using hj) hjk

/-- Putting an inode back once the caller relies on none. -/
theorem iput_good_nil : Triple FreeingFree (Good A) (iput k : FsM ι Unit) fun _ => Good [] :=
  (iput_good [] k List.not_mem_nil).conseq (fun _ hs => hs.nil) fun _ _ h => h

/-- Putting an inode back, then returning. -/
theorem iput_ret_good {α : Type} (a : α) :
    Triple FreeingFree (Good A) (do iput k; pure a : FsM ι α) fun _ => Good [] :=
  (iput_good_nil A k).bind fun _ => Triple.pure fun _ hs => hs

/-- `ialloc` hands out an inode that was free, so none the caller relies on. -/
theorem ialloc_good (type : IType) :
    Triple FreeingFree (Good A) (ialloc type : FsM ι (Option ℕ))
      fun r s => Good A s ∧ ∀ i, r = some i → i ∉ A := by
  refine Triple.get_bind fun s₀ => ?_
  split
  · exact Triple.pure fun s hs => ⟨hs.1, fun _ h => by cases h⟩
  · rename_i inum hfind
    have hfree : (s₀.disk.inode inum).type = .free := by simpa using List.find?_some hfind
    refine (Triple.set (Q := fun _ s => Good A s ∧ inum ∉ A) fun s hs => ?_).bind fun _ =>
      Triple.assume fun hA => (iget_good A inum).bind fun _ =>
        Triple.pure fun s hs => ⟨hs, fun i hi => by cases hi; exact hA⟩
    obtain ⟨hg, rfl⟩ := hs
    -- an inode the state relies on is allocated, so it is not the free one
    have hne : ∀ j, s.disk.Allocated j → j ≠ inum := fun j hj h => hj (h ▸ hfree)
    refine ⟨hg.of_alloc (hg.blocks.setInode_empty rfl (.inl (by simp [Disk.Allocated, hfree])))
      (fun j hj => ?_) fun _ hj => hj, fun hA => hne inum (hg.held inum hA) rfl⟩
    unfold Disk.Allocated at hj ⊢
    simpa [Function.update_of_ne (hne j hj)] using hj

/-- `writei` on an allocated inode keeps `Good`. -/
theorem writei_good (hk : k ∈ A) (off n : ℕ) (ok : ℕ → Bool) :
    Triple FreeingFree (Good A) (onDisk fun d => writei d k off n ok : FsM ι ℤ) fun _ => Good A :=
  onDisk_triple fun s hs => by
    refine ⟨fun e he => ?_, fun d r h => ?_⟩
    · rw [writei_error he]
      decide
    · obtain ⟨hd, htype, -⟩ := hs.blocks.writei (hs.held k hk) h
      exact hs.of_types hd (fun j => (htype j).1) fun _ hj => hj

/-- So does `itrunc`. -/
theorem itrunc_good (hk : k ∈ A) :
    Triple FreeingFree (Good A) (onDisk fun d => (itrunc d k).map ((·, ())) : FsM ι Unit)
      fun _ => Good A :=
  onDisk_triple fun s hs => by
    obtain ⟨d, hd, hinv, hinode, -⟩ := hs.blocks.itrunc (hs.held k hk)
    rw [hd]
    refine ⟨fun e he => (by cases he), fun d' a h => ?_⟩
    simp only [Except.map, Except.ok.injEq, Prod.mk.injEq] at h
    obtain ⟨rfl, -⟩ := h
    refine hs.of_types hinv (fun j => ?_) fun _ hj => hj
    by_cases hj : j = k
    · subst hj
      simp [hinode]
    · simp [hinode, Function.update_of_ne hj]

end Itable

/-! ### Directories and path names -/

section Dir

variable (A : List ℕ)

theorem dirlookup_good (dp : ℕ) (name : List Char) :
    Triple FreeingFree (Good A) (dirlookup dp name : FsM ι (Option (ℕ × ℕ))) fun _ => Good A := by
  refine Triple.get_bind fun s₀ => ?_
  refine Triple.ite (fun _ => Triple.throw (by decide)) fun _ => ?_
  split
  · exact Triple.pure fun s hs => hs.1
  · exact ((iget_good A _).conseq (fun s hs => hs.1) fun _ _ h => h).bind fun _ =>
      Triple.pure fun _ hs => hs

/-- `dirlink` into an allocated directory keeps `Good`.  When the name is present, the inode
found is put back, which may free it: the caller then relies on nothing. -/
theorem dirlink_good {dp : ℕ} (hdp : dp ∈ A) (name : List Char) (inum : ℕ) :
    Triple FreeingFree (Good A) (dirlink dp name inum : FsM ι ℤ)
      fun r s => Good [] s ∧ (0 ≤ r → Good A s) := by
  refine (dirlookup_good A dp name).bind fun r => ?_
  rcases r with _ | ⟨ip, _⟩
  · refine Triple.get_bind fun s₀ => ?_
    refine ((writei_good A dp hdp _ _ _).conseq (fun s hs => hs.1) fun _ _ h => h).bind fun r => ?_
    refine Triple.ite (fun _ => Triple.pure fun s hs => ⟨hs.nil, fun h => by omega⟩) fun _ => ?_
    refine (Triple.modify (Q := fun _ => Good A) fun s hs => ?_).bind fun _ =>
      Triple.pure fun s hs => ⟨hs.nil, fun _ => hs⟩
    exact hs.of_types (hs.blocks.setDir _ _ _) (fun _ => rfl) fun _ hj => hj
  · exact (iput_good_nil _ ip).bind
      fun _ => Triple.pure fun s hs => ⟨hs, fun h => by omega⟩

/-- The loop of `namex` puts back every inode it passes, so it relies on none. -/
theorem namexLoop_good (parent : Bool) :
    ∀ (fuel ip : ℕ) (path : List Char),
      Triple FreeingFree (Good []) (namexLoop parent fuel ip path : FsM ι _) fun _ => Good [] := by
  -- the loop's end
  have hdone : ∀ ip, Triple FreeingFree (Good [])
      (namexLoop.done parent ip : FsM ι (Option (ℕ × List Char))) fun _ => Good [] := fun ip => by
    unfold namexLoop.done
    refine Triple.ite (fun _ => ?_) fun _ => Triple.pure fun _ hs => hs
    exact iput_ret_good [] ip _
  intro fuel
  induction fuel with
  | zero => exact fun ip _ => hdone ip
  | succ fuel ih =>
    intro ip path
    unfold namexLoop
    split
    · -- one more element: `ip` is locked, then put back
      refine (ilock_good [] ip).bind fun _ => Triple.get_bind fun s₀ => ?_
      have hput : Triple FreeingFree (Good [ip]) (iput ip : FsM ι Unit) fun _ => Good [] :=
        iput_good_nil _ ip
      refine Triple.ite (fun _ => ?_) fun _ => ?_
      · exact (hput.conseq (fun s hs => hs.1) fun _ _ h => h).bind fun _ =>
          Triple.pure fun _ hs => hs
      refine Triple.ite (fun _ => Triple.pure fun s hs => hs.1.nil) fun _ => ?_
      refine ((dirlookup_good [ip] ip _).conseq (fun s hs => hs.1) fun _ _ h => h).bind
        fun r => ?_
      rcases r with _ | ⟨next, _⟩
      · exact hput.bind fun _ => Triple.pure fun _ hs => hs
      · exact hput.bind fun _ => ih next _
    · exact hdone ip

theorem namex_good (cwd : ℕ) (path : List Char) (parent : Bool) :
    Triple FreeingFree (Good A) (namex cwd path parent : FsM ι _) fun _ => Good [] := by
  unfold namex
  refine Triple.ite (fun _ => ?_) fun _ => ?_
  · exact ((iget_good A _).conseq (fun s hs => hs) fun _ _ h => h.nil).bind fun _ =>
      namexLoop_good parent _ _ _
  · exact ((idup_good A _).conseq (fun s hs => hs) fun _ _ h => h.nil).bind fun _ =>
      namexLoop_good parent _ _ _

theorem namei_good (cwd : ℕ) (path : List Char) :
    Triple FreeingFree (Good A) (namei cwd path : FsM ι (Option ℕ)) fun _ => Good [] :=
  (namex_good A cwd path false).bind fun _ => Triple.pure fun _ hs => hs

theorem nameiparent_good (cwd : ℕ) (path : List Char) :
    Triple FreeingFree (Good A) (nameiparent cwd path : FsM ι _) fun _ => Good [] :=
  namex_good A cwd path true

end Dir

/-! ### Files and the system calls -/

section Calls

variable (A : List ℕ)

theorem filealloc_good :
    Triple FreeingFree (Good A) (filealloc : FsM ι (Option (Fin nfile))) fun _ => Good A := by
  refine Triple.get_bind fun s₀ => ?_
  split
  · exact Triple.pure fun s hs => hs.1
  · refine (Triple.set ?_).bind fun _ => Triple.pure fun _ hs => hs
    rintro s ⟨hs, rfl⟩
    exact hs.congr rfl fun _ hj => hj

theorem filedup_good (f : Fin nfile) :
    Triple FreeingFree (Good A) (filedup f : FsM ι Unit) fun _ => Good A := by
  refine Triple.get_bind fun s₀ => ?_
  refine Triple.ite (fun _ => Triple.throw (by decide)) fun _ => Triple.set ?_
  rintro s ⟨hs, rfl⟩
  exact hs.congr rfl fun _ hj => hj

/-- Closing a file may put back its inode. -/
theorem fileclose_good (f : Fin nfile) :
    Triple FreeingFree (Good A) (fileclose f : FsM ι Unit) fun _ => Good [] := by
  refine Triple.get_bind fun s₀ => ?_
  refine Triple.ite (fun _ => Triple.throw (by decide)) fun _ => ?_
  -- the file table alone changes, then the inode may be put back
  have hset : ∀ ff : File, ∀ s, Good A s ∧ s = s₀ →
      Good [] { s₀ with file := Function.update s₀.file f ff } := by
    rintro ff s ⟨hs, rfl⟩
    exact Good.nil (hs.congr rfl fun _ hj => hj)
  refine Triple.ite (fun _ => Triple.set (hset _)) fun _ => ?_
  refine (Triple.set (Q := fun _ => Good []) (hset _)).bind fun _ => ?_
  exact Triple.ite (fun _ => iput_good_nil [] _) fun _ => Triple.pure fun _ hs => hs

theorem filewriteLoop_good (f : Fin nfile) (n : ℕ) (ok : ℕ → Bool) :
    ∀ fuel i, Triple FreeingFree (Good []) (filewriteLoop f n ok fuel i : FsM ι ℕ)
      fun _ => Good [] := by
  intro fuel
  induction fuel with
  | zero => exact fun i => Triple.pure fun _ hs => hs
  | succ fuel ih =>
    intro i
    unfold filewriteLoop
    refine Triple.ite (fun _ => ?_) fun _ => Triple.pure fun _ hs => hs
    refine Triple.get_bind fun s₀ => ((ilock_good [] _).conseq (fun s hs => hs.1) fun _ _ h => h).bind
      fun _ => Triple.get_bind fun s₁ => ?_
    refine ((writei_good _ _ List.mem_cons_self _ _ _).conseq (fun s hs => hs.1)
      fun _ _ h => h.nil).bind fun r => ?_
    -- the offset moves on, then the loop goes on or stops
    have hrest : Triple FreeingFree (Good [])
        (if r ≠ ↑(min (n - i) maxWrite) then pure i else filewriteLoop f n ok fuel (i + min (n - i) maxWrite) : FsM ι ℕ)
        fun _ => Good [] :=
      Triple.ite (fun _ => Triple.pure fun _ hs => hs) fun _ => ih _
    refine Triple.ite (fun _ => ?_) fun _ => hrest
    exact (Triple.modify fun s hs => hs.congr rfl fun _ hj => hj).bind fun _ => hrest

theorem filewrite_good (f : Fin nfile) (n : ℤ) (ok : ℕ → Bool) (dev : ℤ) :
    Triple FreeingFree (Good []) (filewrite f n ok dev : FsM ι ℤ) fun _ => Good [] := by
  refine Triple.get_bind fun s₀ => ?_
  refine Triple.ite (fun _ => Triple.pure fun s hs => hs.1) fun _ => ?_
  split
  · exact Triple.pure fun s hs => hs.1
  · exact ((filewriteLoop_good f _ ok _ 0).conseq (fun s hs => hs.1) fun _ _ h => h).bind
      fun _ => Triple.pure fun _ hs => hs
  · exact Triple.pure fun s hs => hs.1
  · exact Triple.throw (by decide)

/-- The links of a new inode, into allocated `ip` and `dp`: when they are all made, the caller
still relies on both. -/
theorem createLinks_good {ip dp : ℕ} (hip : ip ∈ A) (hdp : dp ∈ A) (name : List Char)
    (type : IType) :
    Triple FreeingFree (Good A) (createLinks ip dp name type : FsM ι Bool)
      fun b s => Good [] s ∧ (b = true → Good A s) := by
  unfold createLinks
  extract_lets link
  -- the entry in `dp`, once the links before it are made
  have hlink : ∀ dots, Triple FreeingFree (fun s => Good [] s ∧ (dots = true → Good A s))
      (link dots) fun b s => Good [] s ∧ (b = true → Good A s) := by
    intro dots
    dsimp only [link]
    refine Triple.ite (fun hd => ?_) fun _ => Triple.pure fun s hs => ⟨hs.1, fun h => by cases h⟩
    refine ((dirlink_good A hdp name ip).conseq (fun s hs => hs.2 hd) fun _ _ h => h).bind
      fun r => ?_
    exact Triple.pure fun s hs => ⟨hs.1, fun h => hs.2 (by simpa using h)⟩
  -- `.` and `..` of a directory
  refine Triple.ite (fun _ => ?_) fun _ =>
    (Triple.pure fun s hs => ⟨hs.nil, fun _ => hs⟩).bind hlink
  refine (dirlink_good A hip ['.'] ip).bind fun r => ?_
  refine Triple.ite (fun _ => (Triple.pure fun s hs => ⟨hs.1, fun h => by cases h⟩).bind hlink)
    fun hr => ?_
  refine ((dirlink_good A hip ['.', '.'] dp).conseq (fun s hs => hs.2 (by omega))
    fun _ _ h => h).bind fun r => ?_
  exact (Triple.pure fun s hs => ⟨hs.1, fun h => hs.2 (by simpa using h)⟩).bind hlink

/-- `create` returns a locked inode, which is allocated. -/
theorem create_good (cwd : ℕ) (path : List Char) (type : IType) (major : ℤ) :
    Triple FreeingFree (Good A) (create cwd path type major : FsM ι (Option ℕ))
      fun r s => Good r.toList s := by
  unfold create
  refine (nameiparent_good A cwd path).bind fun r => ?_
  rcases r with _ | ⟨dp, name⟩
  · exact Triple.pure fun _ hs => hs
  refine (ilock_good [] dp).bind fun _ => (dirlookup_good [dp] dp name).bind fun r => ?_
  rcases r with _ | ⟨ip, _⟩
  · -- a new inode, which is not `dp`
    refine (ialloc_good [dp] type).bind fun r => ?_
    rcases r with _ | ip
    · exact ((iput_good_nil _ dp).conseq (fun _ hs => hs.1)
        fun _ _ h => h).bind fun _ => Triple.pure fun _ hs => hs
    refine (Triple.assume (c := ip ∉ [dp]) fun hne => ?_).conseq
      (fun s hs => ⟨hs.1, hs.2 ip rfl⟩) fun _ _ h => h
    have hne : dp ≠ ip := fun h => hne (by simp [h])
    refine (ilock_good [dp] ip).bind fun _ => ?_
    refine (iupdate_good [ip, dp] ip (by intros; rfl) (by intros; rfl)).bind fun _ => ?_
    refine (createLinks_good [ip, dp] List.mem_cons_self (by simp) name type).bind fun b => ?_
    refine Triple.ite (fun hb => ?_) fun _ => ?_
    · -- linked: `dp` is put back, and `ip` returned
      extract_lets ret
      have hret : ∀ u, Triple FreeingFree (Good [ip, dp]) (ret u) fun r s => Good r.toList s :=
        fun _ => ((iput_good [ip] dp (by simpa using hne)).conseq (fun s hs => hs.mono
          fun k hk => List.mem_cons.2 (.inl (List.mem_singleton.1 hk))) fun _ _ h => h).bind fun _ =>
            Triple.pure fun _ hs => hs
      refine Triple.ite (fun _ => ?_) fun _ => (hret ()).conseq (fun s hs => hs.2 hb)
        fun _ _ h => h
      exact ((iupdate_good [ip, dp] dp (by intros; rfl) (by intros; rfl)).conseq (fun s hs => hs.2 hb)
        fun _ _ h => h).bind hret
    · -- not linked: `ip` is de-allocated
      refine ((iupdate_good [] ip (by intros; rfl) (by intros; rfl)).conseq (fun s hs => hs.1)
        fun _ _ h => h).bind fun _ => (iput_good_nil [] ip).bind fun _ =>
          (iput_good_nil [] dp).bind fun _ => Triple.pure fun _ hs => hs
  · -- the inode `path` names already
    refine (iput_good_nil _ dp).bind
      fun _ => (ilock_good [] ip).bind fun _ => Triple.get_bind fun s₀ => ?_
    refine Triple.ite (fun _ => Triple.pure fun s hs => hs.1) fun _ => ?_
    exact ((iput_good_nil _ ip).conseq (fun _ hs => hs.1) fun _ _ h => h).bind
      fun _ => Triple.pure fun _ hs => hs

theorem sysWrite_good (p : ι) (fd : ℕ) (n : ℤ) (ok : ℕ → Bool) (dev : ℤ) :
    Triple FreeingFree (Good []) (sysWrite p fd n ok dev : FsM ι ℤ) fun _ => Good [] := by
  refine Triple.get_bind fun s₀ => ?_
  split
  · exact Triple.pure fun s hs => hs.1
  · exact (filewrite_good _ n ok dev).conseq (fun s hs => hs.1) fun _ _ h => h

theorem sysLink_good (p : ι) (old new : List Char) :
    Triple FreeingFree (Good []) (sysLink p old new : FsM ι ℤ) fun _ => Good [] := by
  unfold sysLink
  refine Triple.ite (fun _ => Triple.pure fun _ hs => hs) fun _ => Triple.get_bind fun s₀ => ?_
  extract_lets cwd
  refine ((namei_good [] cwd old).conseq (fun s hs => hs.1) fun _ _ h => h).bind fun r => ?_
  rcases r with _ | ip
  · exact Triple.pure fun _ hs => hs
  refine (ilock_good [] ip).bind fun _ => Triple.get_bind fun s₁ => ?_
  refine Triple.ite (fun _ => (iput_ret_good _ ip _).conseq (fun _ hs => hs.1)
    fun _ _ h => h) fun _ => ?_
  refine ((iupdate_good [] ip (by intros; rfl) (by intros; rfl)).conseq (fun s hs => hs.1.nil)
    fun _ _ h => h).bind fun _ => ?_
  extract_lets linked
  -- the link count is kept, or restored
  have hlinked : ∀ b, Triple FreeingFree (Good []) (linked b) fun _ => Good [] := by
    intro b
    dsimp only [linked]
    refine Triple.ite (fun _ => iput_ret_good [] ip _) fun _ => ?_
    refine (ilock_good [] ip).bind fun _ => ?_
    refine ((iupdate_good [] ip (by intros; rfl) (by intros; rfl)).conseq (fun s hs => hs.nil)
      fun _ _ h => h).bind fun _ => ?_
    exact iput_ret_good [] ip _
  -- the new name, in a locked directory
  refine (nameiparent_good [] cwd new).bind fun r => ?_
  rcases r with _ | ⟨dp, name⟩
  · exact (Triple.pure fun _ hs => hs).bind hlinked
  refine (ilock_good [] dp).bind fun _ => ?_
  refine ((dirlink_good [dp] List.mem_cons_self name ip).conseq (fun s hs => hs)
    fun _ _ h => h.1).bind fun r => ?_
  exact (iput_good_nil [] dp).bind fun _ => (Triple.pure fun _ hs => hs).bind hlinked

theorem sysUnlink_good (p : ι) (path : List Char) :
    Triple FreeingFree (Good []) (sysUnlink p path : FsM ι ℤ) fun _ => Good [] := by
  unfold sysUnlink
  refine Triple.ite (fun _ => Triple.pure fun _ hs => hs) fun _ => Triple.get_bind fun s₀ => ?_
  refine ((nameiparent_good [] _ path).conseq (fun s hs => hs.1) fun _ _ h => h).bind fun r => ?_
  rcases r with _ | ⟨dp, name⟩
  · exact Triple.pure fun _ hs => hs
  have hputdp := iput_ret_good [dp] dp (-1 : ℤ) (ι := ι)
  refine (ilock_good [] dp).bind fun _ => Triple.ite (fun _ => hputdp) fun _ => ?_
  refine (dirlookup_good [dp] dp name).bind fun r => ?_
  rcases r with _ | ⟨ip, off⟩
  · exact hputdp
  refine (ilock_good [dp] ip).bind fun _ => Triple.get_bind fun s₁ => ?_
  -- the three join points of the body, innermost first
  extract_lets di drop clear check
  -- the link counts drop, and both inodes are put back
  have hdrop : ∀ u, Triple FreeingFree (Good [ip, dp]) (drop u) fun _ => Good [] := by
    intro u
    dsimp only [drop]
    exact (iput_good_nil _ dp).bind
      fun _ => (iupdate_good [] ip (by intros; rfl) (by intros; rfl)).bind fun _ =>
        iput_ret_good [] ip _
  -- the entry is cleared
  have hclear : ∀ u, Triple FreeingFree (Good [ip, dp]) (clear u) fun _ => Good [] := by
    intro u
    dsimp only [clear]
    refine (Triple.modify (Q := fun _ => Good [ip, dp]) fun s hs =>
      hs.of_types (hs.blocks.setDir _ _ _) (fun _ => rfl) fun _ hj => hj).bind fun _ => ?_
    exact Triple.ite (fun _ => (iupdate_good [ip, dp] dp (by intros; rfl) (by intros; rfl)).bind
      hdrop) fun _ => hdrop ()
  refine Triple.ite (fun _ => Triple.throw_bind (by decide)) fun _ => ?_
  dsimp only [check]
  refine Triple.get_bind fun s₂ => Triple.ite (fun _ => ?_) fun _ => ?_
  · -- a directory that is not empty
    exact ((iput_good_nil _ ip).conseq (fun _ hs => hs.1.1)
      fun _ _ h => h).bind fun _ => iput_ret_good [] dp _
  refine ((writei_good [ip, dp] dp (by simp) _ _ _).conseq (fun s hs => hs.1.1)
    fun _ _ h => h).bind fun r => ?_
  exact Triple.ite (fun _ => Triple.throw_bind (by decide)) fun _ => hclear ()

/-- `mkdir` and `mknod`: `create`, then the new inode put back. -/
theorem create_put_good (cwd : ℕ) (path : List Char) (type : IType) (major : ℤ) :
    Triple FreeingFree (Good [])
      (do
        match ← create cwd path type major with
        | none => pure (-1)
        | some ip =>
          iput ip
          pure 0 : FsM ι ℤ) fun _ => Good [] := by
  refine (create_good [] cwd path type major).bind fun r => ?_
  rcases r with _ | ip
  · exact Triple.pure fun _ hs => hs
  · exact iput_ret_good _ ip _

theorem sysMkdir_good (p : ι) (path : List Char) :
    Triple FreeingFree (Good []) (sysMkdir p path : FsM ι ℤ) fun _ => Good [] :=
  Triple.ite (fun _ => Triple.pure fun _ hs => hs) fun _ => Triple.get_bind fun _ =>
    (create_put_good _ path .dir 0).conseq (fun _ hs => hs.1) fun _ _ h => h

theorem sysMknod_good (p : ι) (path : List Char) (major : ℤ) :
    Triple FreeingFree (Good []) (sysMknod p path major : FsM ι ℤ) fun _ => Good [] :=
  Triple.ite (fun _ => Triple.pure fun _ hs => hs) fun _ => Triple.get_bind fun _ =>
    (create_put_good _ path .device _).conseq (fun _ hs => hs.1) fun _ _ h => h

variable [DecidableEq ι]

theorem fdalloc_good (p : ι) (f : Fin nfile) :
    Triple FreeingFree (Good A) (fdalloc p f : FsM ι (Option (Fin nofile))) fun _ => Good A := by
  refine Triple.get_bind fun s₀ => ?_
  split
  · exact Triple.pure fun s hs => hs.1
  · refine (Triple.set ?_).bind fun _ => Triple.pure fun _ hs => hs
    rintro s ⟨hs, rfl⟩
    exact hs.congr rfl fun _ hj => hj

omit [DecidableEq ι] in
theorem pipealloc_good (kallocOk : Bool) :
    Triple FreeingFree (Good [])
      (pipealloc kallocOk : FsM ι (Option (Fin nfile × Fin nfile))) fun _ => Good [] := by
  unfold pipealloc
  refine (filealloc_good []).bind fun r => ?_
  rcases r with _ | f0
  · exact Triple.pure fun _ hs => hs
  refine (filealloc_good []).bind fun r => ?_
  rcases r with _ | f1
  · exact (fileclose_good [] f0).bind fun _ => Triple.pure fun _ hs => hs
  refine Triple.ite (fun _ => ?_) fun _ => ?_
  · exact (Triple.modify (Q := fun _ => Good []) fun s hs => hs.congr rfl fun _ hj => hj).bind
      fun _ => (Triple.modify (Q := fun _ => Good []) fun s hs => hs.congr rfl fun _ hj => hj).bind
        fun _ => Triple.pure fun _ hs => hs
  · exact (fileclose_good [] f0).bind fun _ => (fileclose_good [] f1).bind fun _ =>
      Triple.pure fun _ hs => hs

theorem sysClose_good (p : ι) (fd : ℕ) :
    Triple FreeingFree (Good []) (sysClose p fd : FsM ι ℤ) fun _ => Good [] := by
  refine Triple.get_bind fun s₀ => ?_
  split
  · exact Triple.pure fun s hs => hs.1
  · refine (Triple.modify (Q := fun _ => Good []) fun s hs => hs.1.congr rfl fun _ hj => hj).bind
      fun _ => ?_
    exact (fileclose_good [] _).bind fun _ => Triple.pure fun _ hs => hs

theorem sysDup_good (p : ι) (fd : ℕ) :
    Triple FreeingFree (Good []) (sysDup p fd : FsM ι ℤ) fun _ => Good [] := by
  refine Triple.get_bind fun s₀ => ?_
  split
  · exact Triple.pure fun s hs => hs.1
  · refine ((fdalloc_good [] p _).conseq (fun s hs => hs.1) fun _ _ h => h).bind fun r => ?_
    rcases r with _ | fd
    · exact Triple.pure fun _ hs => hs
    · exact (filedup_good [] _).bind fun _ => Triple.pure fun _ hs => hs

theorem sysOpen_good (p : ι) (path : List Char) (omode : ℕ) :
    Triple FreeingFree (Good []) (sysOpen p path omode : FsM ι ℤ) fun _ => Good [] := by
  unfold sysOpen
  refine Triple.ite (fun _ => Triple.pure fun _ hs => hs) fun _ => Triple.get_bind fun s₀ => ?_
  extract_lets cwd opened
  -- the file and its descriptor for a locked inode
  have hopened : ∀ ip?, Triple FreeingFree (Good (Option.toList ip?)) (opened ip?)
      fun _ => Good [] := by
    intro ip?
    dsimp only [opened]
    rcases ip? with _ | ip
    · exact Triple.pure fun _ hs => hs
    have hput := iput_ret_good [ip] ip (-1 : ℤ) (ι := ι)
    refine Triple.get_bind fun s₁ => ?_
    refine Triple.ite (fun _ => hput.conseq (fun s hs => hs.1) fun _ _ h => h) fun _ => ?_
    refine ((filealloc_good [ip]).conseq (fun s hs => hs.1) fun _ _ h => h).bind fun r => ?_
    rcases r with _ | f
    · exact hput
    refine (fdalloc_good [ip] p f).bind fun r => ?_
    rcases r with _ | fd
    · exact ((fileclose_good [ip] f).bind fun _ => iput_ret_good [] ip _)
    refine Triple.get_bind fun s₂ => ?_
    refine (Triple.modify (Q := fun _ => Good [ip]) fun s hs => hs.1.congr rfl fun _ hj => hj).bind
      fun _ => ?_
    -- `O_TRUNC` on a file
    refine Triple.ite (fun _ => (itrunc_good [ip] ip List.mem_cons_self).bind fun _ =>
      Triple.pure fun _ hs => hs.nil) fun _ => Triple.pure fun _ hs => hs.nil
  refine Triple.ite (fun _ => ?_) fun _ => ?_
  · exact ((create_good [] cwd path .file 0).conseq (fun s hs => hs.1) fun _ _ h => h).bind hopened
  refine ((namei_good [] cwd path).conseq (fun s hs => hs.1) fun _ _ h => h).bind fun r => ?_
  rcases r with _ | ip
  · exact (Triple.pure (a := none) fun _ hs => hs).bind hopened
  refine (ilock_good [] ip).bind fun _ => Triple.get_bind fun s₁ => ?_
  refine Triple.ite (fun _ => ?_) fun _ =>
    (Triple.pure (a := some ip) fun s hs => hs.1.mono fun _ h => h).bind hopened
  exact ((iput_good_nil _ ip).conseq (fun _ hs => hs.1) fun _ _ h => h).bind
    fun _ => (Triple.pure (a := none) fun _ hs => hs).bind hopened

theorem sysChdir_good (p : ι) (path : List Char) :
    Triple FreeingFree (Good []) (sysChdir p path : FsM ι ℤ) fun _ => Good [] := by
  unfold sysChdir
  refine Triple.ite (fun _ => Triple.pure fun _ hs => hs) fun _ => Triple.get_bind fun s₀ => ?_
  refine ((namei_good [] _ path).conseq (fun s hs => hs.1) fun _ _ h => h).bind fun r => ?_
  rcases r with _ | ip
  · exact Triple.pure fun _ hs => hs
  refine (ilock_good [] ip).bind fun _ => Triple.get_bind fun s₁ => ?_
  refine Triple.ite (fun _ => (iput_ret_good _ ip _).conseq (fun _ hs => hs.1)
    fun _ _ h => h) fun _ => ?_
  -- the old directory is put back
  refine Triple.get_bind fun s₂ => ((iput_good_nil _ _).conseq (fun _ hs => hs.1.1) fun _ _ h => h).bind fun _ => ?_
  exact (Triple.modify fun s hs => hs.congr rfl fun _ hj => hj).bind fun _ =>
    Triple.pure fun _ hs => hs

theorem sysPipe_good (p : ι) (kallocOk copyOk : Bool) :
    Triple FreeingFree (Good []) (sysPipe p kallocOk copyOk : FsM ι ℤ) fun _ => Good [] := by
  unfold sysPipe
  -- closing both files, after the descriptors taken are cleared again
  have hclose : ∀ rf wf : Fin nfile, Triple FreeingFree (Good [])
      (do fileclose rf; fileclose wf; pure (-1) : FsM ι ℤ) fun _ => Good [] := fun rf wf =>
    (fileclose_good [] rf).bind fun _ => (fileclose_good [] wf).bind fun _ =>
      Triple.pure fun _ hs => hs
  have hclear : ∀ fd : Fin nofile, Triple FreeingFree (Good [])
      (modify fun s => { s with
        ofile := Function.update s.ofile p (Function.update (s.ofile p) fd none) } : FsM ι Unit)
      fun _ => Good [] := fun _ => Triple.modify fun s hs => hs.congr rfl fun _ hj => hj
  refine (pipealloc_good kallocOk).bind fun r => ?_
  rcases r with _ | ⟨rf, wf⟩
  · exact Triple.pure fun _ hs => hs
  refine (fdalloc_good [] p rf).bind fun r => ?_
  rcases r with _ | fd0
  · exact hclose rf wf
  refine (fdalloc_good [] p wf).bind fun r => ?_
  rcases r with _ | fd1
  · exact (hclear fd0).bind fun _ => hclose rf wf
  refine Triple.ite (fun _ => Triple.pure fun _ hs => hs) fun _ => ?_
  exact (hclear fd0).bind fun _ => (hclear fd1).bind fun _ => hclose rf wf

omit [DecidableEq ι] in
theorem sysExec_good (p : ι) (path : List Char) (argsOk loaded : Bool) :
    Triple FreeingFree (Good []) (sysExec p path argsOk loaded : FsM ι ℤ) fun _ => Good [] := by
  unfold sysExec
  refine Triple.ite (fun _ => Triple.pure fun _ hs => hs) fun _ => ?_
  refine Triple.ite (fun _ => Triple.pure fun _ hs => hs) fun _ => Triple.get_bind fun s₀ => ?_
  refine ((namei_good [] _ path).conseq (fun s hs => hs.1) fun _ _ h => h).bind fun r => ?_
  rcases r with _ | ip
  · exact Triple.pure fun _ hs => hs
  exact (ilock_good [] ip).bind fun _ => iput_ret_good _ ip _

theorem fork_good (p c : ι) : Triple FreeingFree (Good []) (fork p c : FsM ι ℤ) fun _ => Good [] := by
  refine Triple.get_bind fun s₀ => Triple.ite (fun _ => Triple.pure fun s hs => hs.1) fun _ => ?_
  refine ((Triple.forM fun fd _ => ?_).conseq (fun s hs => hs.1) fun _ _ h => h).bind fun _ => ?_
  · split
    · exact filedup_good [] _
    · exact Triple.pure fun _ hs => hs
  · exact (idup_good [] _).bind fun _ => (Triple.modify fun s hs => hs.congr rfl
      fun _ hj => hj).bind fun _ => Triple.pure fun _ hs => hs

theorem exit_good (initproc p : ι) :
    Triple FreeingFree (Good []) (exit initproc p : FsM ι Unit) fun _ => Good [] := by
  refine Triple.ite (fun _ => Triple.throw (by decide)) fun _ => ?_
  refine (Triple.forM fun fd _ => ?_).bind fun _ => Triple.get_bind fun s₀ => ?_
  · -- one descriptor closed
    refine Triple.get_bind fun s₁ => ?_
    split
    · exact ((fileclose_good [] _).conseq (fun s hs => hs.1) fun _ _ h => h).bind fun _ =>
        Triple.modify fun s hs => hs.congr rfl fun _ hj => hj
    · exact Triple.pure fun s hs => hs.1
  · exact ((iput_good_nil [] _).conseq (fun s hs => hs.1) fun _ _ h => h).bind
      fun _ => Triple.modify fun s hs => hs.congr rfl fun _ hj => hj

/-- No system call reaches `bfree`'s panic, and each keeps `Good`. -/
theorem syscall_good (initproc p : ι) (c : Call ι) :
    Triple FreeingFree (Good []) (syscall initproc p c : FsM ι ℤ) fun _ => Good [] := by
  cases c with
  | «open» path omode => exact sysOpen_good p path omode
  | write fd n ok dev => exact sysWrite_good p fd n ok dev
  | close fd => exact sysClose_good p fd
  | dup fd => exact sysDup_good p fd
  | link old new => exact sysLink_good p old new
  | unlink path => exact sysUnlink_good p path
  | mkdir path => exact sysMkdir_good p path
  | mknod path major => exact sysMknod_good p path major
  | chdir path => exact sysChdir_good p path
  | pipe kallocOk copyOk => exact sysPipe_good p kallocOk copyOk
  | exec path argsOk loaded => exact sysExec_good p path argsOk loaded
  | fork c => exact fork_good p c
  | exit => exact (exit_good initproc p).bind fun _ => Triple.pure fun _ hs => hs

end Calls

/-! ### The image of `mkfs` -/

theorem mkfsImage_allocated {i : ℕ} : mkfsImage.Allocated i ↔ i = rootIno := by
  by_cases hi : i = rootIno <;> simp [Disk.Allocated, mkfsImage, hi]

theorem mkfsImage_addrs (i j : ℕ) :
    (mkfsImage.inode i).addrs j = if i = rootIno ∧ j = 0 then nMeta else 0 := by
  by_cases hi : i = rootIno <;> by_cases hj : j = 0 <;> simp [mkfsImage, hi, hj]

/-- The image holds one block: the root directory's first. -/
theorem mkfsImage_get (t : Slot) :
    mkfsImage.get t = if t = .direct rootIno 0 then nMeta else 0 := by
  cases t with
  | direct i j =>
    simp only [Disk.get, mkfsImage_allocated, mkfsImage_addrs, Slot.direct.injEq]
    by_cases hi : i = rootIno <;> by_cases hj : j = 0 <;> simp [hi, hj, nDirect]
  | indirect i => simp [Disk.get, mkfsImage_allocated, mkfsImage_addrs, nDirect]
  | entry i k => simp [Disk.get, mkfsImage_allocated, mkfsImage_addrs, nDirect]

theorem mkfsImage_used (b : ℕ) : mkfsImage.used b = true ↔ b < nMeta + 1 := by
  simp [mkfsImage]

theorem mkfsImage_blocks : BlockInv mkfsImage where
  reserved b hb := by
    rw [mkfsImage_used]
    omega
  used_iff b hb hlt := by
    rw [mkfsImage_used]
    constructor
    · intro hb'
      exact ⟨.direct rootIno 0, by rw [mkfsImage_get, if_pos rfl]; omega⟩
    · rintro ⟨t, ht⟩
      rw [mkfsImage_get] at ht
      split_ifs at ht <;> omega
  range t ht := by
    rw [mkfsImage_get] at ht ⊢
    split_ifs at ht ⊢
    · decide
    · exact absurd rfl ht
  unique t u h hne := by
    rw [mkfsImage_get, mkfsImage_get] at h
    rw [mkfsImage_get] at hne
    split_ifs at h hne with ht hu <;> first | exact ht.trans hu.symm | omega

/-! ### Whole runs -/

section Runs

variable [DecidableEq ι]

/-- The kernel starts from a disk with the block invariant and no valid entry. -/
theorem init_good {d : Disk} (hd : BlockInv d) (initproc : ι) : Good [] (init d initproc) :=
  ⟨hd, fun _ hk => (by cases hk), fun _ hk => (by cases hk)⟩

/-- A step is a completed system call, so it keeps `Good`. -/
theorem step_good {initproc : ι} {s s' : Sys ι} {a : ι × Call ι} (hs : Good [] s)
    (h : step initproc s a = some s') : Good [] s' :=
  step_inv (fun p c => (syscall_good initproc p c).conseq (fun _ hs => hs.1) fun _ _ h => h) hs h

/-- Every state reachable from a disk with the block invariant satisfies `Good []`. -/
theorem good_of_reachable {d : Disk} (hd : BlockInv d) {initproc : ι} {s : Sys ι}
    (hs : Steps.Reachable (step initproc) (init d initproc) s) : Good [] s :=
  hs.inv (init_good hd initproc) fun _ _ _ h => step_good h

/-- From a disk with the block invariant, every reachable state keeps it: the bitmap marks
exactly the data blocks that allocated inodes hold, each once.  So the block `balloc` takes is
a data block no slot holds, and no system call reaches `bfree`'s "freeing free block". -/
theorem blocks_of_reachable {d : Disk} (hd : BlockInv d) {initproc : ι} {s : Sys ι}
    (hs : Steps.Reachable (step initproc) (init d initproc) s) :
    BlockInv s.disk ∧
      (∀ b, s.disk.firstFree = some b → (nMeta ≤ b ∧ b < fsSize) ∧ ∀ t, s.disk.get t ≠ b) ∧
      ∀ p c, (syscall initproc p c).run s ≠ .error "freeing free block" := by
  have hg := good_of_reachable hd hs
  exact ⟨hg.blocks, fun _ => hg.blocks.fresh, fun p c => (syscall_good initproc p c).run_ne hg rfl⟩

theorem blocks_of_reachable_mkfs :
    BlockInv (init mkfsImage (0 : ℕ)).disk ∧
      (∀ b, (init mkfsImage (0 : ℕ)).disk.firstFree = some b →
        (nMeta ≤ b ∧ b < fsSize) ∧ ∀ t, (init mkfsImage (0 : ℕ)).disk.get t ≠ b) ∧
      ∀ p c, (syscall 0 p c).run (init mkfsImage (0 : ℕ)) ≠ .error "freeing free block" :=
  blocks_of_reachable mkfsImage_blocks .init

end Runs

end Xv6.Fs
