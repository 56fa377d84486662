import Xv6.Fs.Syscall

/-!
# Names and link counts (`kernel/sysfile.c`)

What the directory entries say, against what the inodes count.  A directory entry names an
inode; `nlink` is meant to count those names, and the directories are meant to form a tree in
which every inode with links is reached from the root by `namei`.

* `Disk.Closed d S`: every live entry of an inode of `S` names an inode of `S`.  `iput` only
  empties inodes, so such a set stays closed over a whole path lookup, and `namei_closed`,
  `namei_mem_of_closed`: a path looked up from an inode of `S` ends in `S`;
* `Disk.Named d i`: a live entry of an allocated directory, other than `.` and `..`, names `i`;
  `Disk.links d i`: how many live entries of allocated directories name `i`, `.` apart;
* `unlinked_cwd_orphans`: `create` never asks whether the directory it links into is still
  linked itself.  A process inside a directory that was unlinked creates there: the new
  directory and the unlinked one both have a link, neither has a name, and no absolute path
  reaches them;
* `link_count_wraps`: `nlink` is a `short`.  From an image in which a file has `32767` names and
  `nlink = 32767`, one more `link` stores `-32768`, and unlinking any name of the file then
  panics.
-/

namespace Xv6.Fs

variable {ι : Type}

/-! ### Sets of inodes closed under their entries -/

/-- Every entry below the size of an inode of `S` is free or names an inode of `S`. -/
def Disk.Closed (d : Disk) (S : List ℕ) : Prop :=
  ∀ a ∈ S, ∀ k < d.nent a, (d.dir a k).inum ≠ 0 → (d.dir a k).inum ∈ S

instance (d : Disk) (S : List ℕ) : Decidable (d.Closed S) :=
  inferInstanceAs (Decidable (∀ a ∈ S, ∀ k < d.nent a, _))

/-- The entry `Disk.lookup` finds is live and below the size. -/
theorem Disk.lookup_some {d : Disk} {dp k : ℕ} {name : List Char}
    (h : d.lookup dp name = some k) : k < d.nent dp ∧ (d.dir dp k).inum ≠ 0 := by
  unfold Disk.lookup at h
  have hp := List.find?_some h
  simp only [Bool.and_eq_true, bne_iff_ne] at hp
  exact ⟨List.mem_range.1 (List.mem_of_find?_eq_some h), hp.1⟩

section Closed

variable (S : List ℕ)

/-- A disk with the same entries, each inode of no larger size, keeps `S` closed. -/
theorem Disk.Closed.shrink {d d' : Disk} (h : d.Closed S) (hdir : d'.dir = d.dir)
    (hsize : ∀ a, (d'.inode a).size ≤ (d.inode a).size) : d'.Closed S := by
  intro a ha k hk hne
  rw [hdir] at hne ⊢
  have hle : d'.nent a ≤ d.nent a := Nat.div_le_div_right (hsize a)
  exact h a ha k (lt_of_lt_of_le hk hle) hne

/-- The disk `iput` leaves when it frees inode `k`: `itrunc` empties it, and it is marked free. -/
theorem Disk.Closed.free {d d' : Disk} {k : ℕ} (h : d.Closed S) (ht : itrunc d k = .ok d') :
    (d'.setInode k { d'.inode k with type := .free }).Closed S := by
  obtain ⟨hinode, hdir⟩ := itrunc_frame ht
  refine h.shrink S (by rw [Disk.setInode_dir, hdir]) fun a => ?_
  by_cases hak : a = k
  · subst hak
    simp [hinode]
  · simp [Function.update_of_ne hak, hinode]

/-! Path lookup rules out no panic: the triples below use `fun _ => False`. -/

theorem iget_closed (k : ℕ) :
    Triple (fun _ => False) (fun s => s.disk.Closed S) (iget k : FsM ι Unit)
      fun _ s => s.disk.Closed S :=
  Triple.modify fun _ hs => hs

theorem idup_closed (k : ℕ) :
    Triple (fun _ => False) (fun s => s.disk.Closed S) (idup k : FsM ι Unit)
      fun _ s => s.disk.Closed S :=
  Triple.modify fun _ hs => hs

theorem ilock_closed (k : ℕ) :
    Triple (fun _ => False) (fun s => s.disk.Closed S) (ilock k : FsM ι Unit)
      fun _ s => s.disk.Closed S := by
  refine Triple.get_bind fun s₀ => Triple.ite (fun _ => Triple.throw id) fun _ => ?_
  refine Triple.ite (fun _ => Triple.pure fun _ hs => hs.1) fun _ => ?_
  refine Triple.ite (fun _ => Triple.throw id) fun _ => Triple.set ?_
  rintro s ⟨hs, rfl⟩
  exact hs

/-- `iput` may free an inode, which only empties it. -/
theorem iput_closed (k : ℕ) :
    Triple (fun _ => False) (fun s => s.disk.Closed S) (iput k : FsM ι Unit)
      fun _ s => s.disk.Closed S := by
  refine Triple.get_bind fun s₀ => ?_
  have hput : Triple (fun _ => False) (fun s => s.disk.Closed S)
      (modify fun s => { s with ref := Function.update s.ref k (s.ref k - 1) } : FsM ι Unit)
      fun _ s => s.disk.Closed S :=
    Triple.modify fun _ hs => hs
  dsimp only
  refine Triple.ite (fun _ => ?_) fun _ => hput.conseq (fun s hs => hs.1) fun _ _ h => h
  refine (onDisk_triple fun s hs => ⟨fun _ _ => id, fun d' _ h => ?_⟩).bind fun _ =>
    (Triple.modify fun _ hs => hs).bind fun _ => hput
  rcases ht : itrunc s.disk k with e | d1
  · rw [ht] at h
    cases h
  · rw [ht] at h
    simp only [Except.map, Except.ok.injEq, Prod.mk.injEq] at h
    obtain ⟨rfl, -⟩ := h
    exact hs.1.free S ht

/-- `dirlookup` in an inode of `S` finds an inode of `S`. -/
theorem dirlookup_closed {dp : ℕ} (hdp : dp ∈ S) (name : List Char) :
    Triple (fun _ => False) (fun s => s.disk.Closed S) (dirlookup dp name : FsM ι _)
      fun r s => s.disk.Closed S ∧ ∀ q ∈ r, q.1 ∈ S := by
  refine Triple.get_bind fun s₀ => Triple.ite (fun _ => Triple.throw id) fun _ => ?_
  split
  · exact Triple.pure fun _ hs => ⟨hs.1, fun _ hq => by cases hq⟩
  · rename_i k hk
    obtain ⟨hlt, hne⟩ := Disk.lookup_some hk
    refine (Triple.modify (Q := fun _ s => s.disk.Closed S ∧ (s₀.disk.dir dp k).inum ∈ S)
      ?_).bind fun _ => Triple.pure fun _ hs => ⟨hs.1, fun q hq => ?_⟩
    · rintro s ⟨hs, rfl⟩
      exact ⟨hs, hs dp hdp k hlt hne⟩
    · obtain rfl := Option.mem_some_iff.1 hq
      exact hs.2

/-- The loop of `namex` from an inode of `S` ends in `S`: each step follows a live entry. -/
theorem namexLoop_closed (parent : Bool) :
    ∀ (fuel ip : ℕ) (path : List Char), ip ∈ S →
      Triple (fun _ => False) (fun s => s.disk.Closed S) (namexLoop parent fuel ip path : FsM ι _)
        fun r s => s.disk.Closed S ∧ ∀ q ∈ r, q.1 ∈ S := by
  have hnone : Triple (fun _ => False) (fun s => s.disk.Closed S)
      (pure none : FsM ι (Option (ℕ × List Char)))
      fun r s => s.disk.Closed S ∧ ∀ q ∈ r, q.1 ∈ S :=
    Triple.pure fun _ hs => ⟨hs, fun _ hq => by cases hq⟩
  -- the loop's end
  have hdone : ∀ ip, ip ∈ S → Triple (fun _ => False) (fun s => s.disk.Closed S)
      (namexLoop.done parent ip : FsM ι (Option (ℕ × List Char)))
      fun r s => s.disk.Closed S ∧ ∀ q ∈ r, q.1 ∈ S := fun ip hip => by
    unfold namexLoop.done
    refine Triple.ite (fun _ => (iput_closed S ip).bind fun _ => hnone) fun _ => ?_
    refine Triple.pure fun _ hs => ⟨hs, fun q hq => ?_⟩
    obtain rfl := Option.mem_some_iff.1 hq
    exact hip
  intro fuel
  induction fuel with
  | zero => exact fun ip _ hip => hdone ip hip
  | succ fuel ih =>
    intro ip path hip
    unfold namexLoop
    split
    · refine (ilock_closed S ip).bind fun _ => Triple.get_bind fun s₀ => ?_
      refine Triple.ite (fun _ => ((iput_closed S ip).conseq (fun s hs => hs.1)
        fun _ _ h => h).bind fun _ => hnone) fun _ => ?_
      refine Triple.ite (fun _ => Triple.pure fun _ hs => ⟨hs.1, fun q hq => ?_⟩) fun _ => ?_
      · obtain rfl := Option.mem_some_iff.1 hq
        exact hip
      refine ((dirlookup_closed S hip _).conseq (fun s hs => hs.1) fun _ _ h => h).bind
        fun r => ?_
      rcases r with _ | ⟨next, off⟩
      · exact ((iput_closed S ip).conseq (fun s hs => hs.1) fun _ _ h => h).bind fun _ => hnone
      -- the entry found names an inode of `S`, where the loop goes on
      refine Triple.conseq (P := fun s => s.disk.Closed S ∧ next ∈ S) ?_
        (fun _ hs => ⟨hs.1, hs.2 _ rfl⟩) fun _ _ h => h
      exact Triple.assume fun hnext =>
        (iput_closed S ip).bind fun _ => ih next _ hnext
    · exact hdone ip hip

/-- `namei` from an inode of `S` (the root for an absolute path, else `cwd`) ends in `S`. -/
theorem namei_closed (cwd : ℕ) (path : List Char)
    (hstart : (if path.head? = some '/' then rootIno else cwd) ∈ S) :
    Triple (fun _ => False) (fun s => s.disk.Closed S) (namei cwd path : FsM ι (Option ℕ))
      fun r s => s.disk.Closed S ∧ ∀ ip ∈ r, ip ∈ S := by
  refine Triple.bind (Q := fun r s => s.disk.Closed S ∧ ∀ q ∈ r, q.1 ∈ S) ?_ fun r =>
    Triple.pure fun _ hs => ⟨hs.1, fun ip hip => ?_⟩
  · unfold namex
    refine Triple.ite (fun h => ?_) fun h => ?_
    · rw [if_pos h] at hstart
      exact (iget_closed S _).bind fun _ => namexLoop_closed S false _ _ _ hstart
    · rw [if_neg h] at hstart
      exact (idup_closed S _).bind fun _ => namexLoop_closed S false _ _ _ hstart
  · obtain ⟨q, hq, rfl⟩ := Option.mem_map.1 hip
    exact hs.2 q hq

end Closed

/-! ### What the entries name -/

/-- A live entry of an allocated directory, other than `.` and `..`, names inode `i`. -/
def Disk.Named (d : Disk) (i : ℕ) : Prop :=
  ∃ dp < nInodes, (d.inode dp).type = .dir ∧ ∃ k < d.nent dp,
    (d.dir dp k).inum = i ∧ (d.dir dp k).name ≠ ['.'] ∧ (d.dir dp k).name ≠ ['.', '.']

instance (d : Disk) (i : ℕ) : Decidable (d.Named i) := by
  unfold Disk.Named
  infer_instance

/-- The live entries of allocated directories that name inode `i`, less a directory's `.`. -/
def Disk.links (d : Disk) (i : ℕ) : ℕ :=
  ((List.range nInodes).map fun dp =>
    if (d.inode dp).type = .dir then
      ((List.range (d.nent dp)).filter fun k =>
        (d.dir dp k).inum = i ∧ (d.dir dp k).name ≠ ['.']).length
    else 0).sum

/-! ### A directory created inside an unlinked one -/

/-- The first process makes `/d`, moves into it, unlinks it, and makes `x` there. -/
def orphanRun : List (ℕ × Call ℕ) :=
  [(0, .mkdir ['/', 'd']), (0, .chdir ['/', 'd']), (0, .unlink ['/', 'd']), (0, .mkdir ['x'])]

/-- After `orphanRun` from the image of `mkfs`, `d` (inode 2) and `x` (inode 3) are directories
with one link each, `x`'s `..` names `d`, no entry but a `.` or a `..` names `d`, and every
absolute path leads back to the root. -/
theorem unlinked_cwd_orphans :
    ∃ s, Steps.run (step 0) (init mkfsImage 0) orphanRun = some s ∧
      (s.disk.inode 2).type = .dir ∧ (s.disk.inode 2).nlink = 1 ∧ ¬ s.disk.Named 2 ∧
      (s.disk.inode 3).type = .dir ∧ (s.disk.inode 3).nlink = 1 ∧
      s.disk.dir 3 1 = ⟨2, ['.', '.']⟩ ∧
      ∀ cwd path ip s', path.head? = some '/' → (namei cwd path).run s = .ok (some ip, s') →
        ip = rootIno := by
  obtain ⟨s, hrun, hd, hx, hclosed⟩ : ∃ s, Steps.run (step 0) (init mkfsImage 0) orphanRun = some s ∧
      ((s.disk.inode 2).type = .dir ∧ (s.disk.inode 2).nlink = 1 ∧ ¬ s.disk.Named 2) ∧
      ((s.disk.inode 3).type = .dir ∧ (s.disk.inode 3).nlink = 1 ∧
        s.disk.dir 3 1 = ⟨2, ['.', '.']⟩) ∧ s.disk.Closed [rootIno] :=
    Steps.exists_of_any (by decide +kernel)
  refine ⟨s, hrun, hd.1, hd.2.1, hd.2.2, hx.1, hx.2.1, hx.2.2, fun cwd path ip s' hpath h => ?_⟩
  -- only the root is closed under the root's entries
  have := (namei_closed [rootIno] cwd path (by simp [hpath])).run_ok hclosed h
  simpa using this.2 ip rfl

/-! ### A link count past `32767` -/

/-- An image whose file `/f` (inode 2) has `32767` names: `/f`, `17150` in directory `/a`
(inode 3, of the largest size `MAXFILE` allows) and `15616` in `/b` (inode 4).  Each directory's
blocks are laid out in order after the root's, and the bitmap marks exactly those. -/
def overflowImage : Disk where
  used b := decide (b < 562)
  inode i :=
    if i = 1 then ⟨.dir, 0, 3, 1024, fun j => if j = 0 then 46 else 0⟩
    else if i = 2 then ⟨.file, 0, 32767, 0, fun _ => 0⟩
    else if i = 3 then
      ⟨.dir, 0, 1, 17152 * 16, fun j => if j < 12 then 47 + j else if j = 12 then 59 else 0⟩
    else if i = 4 then
      ⟨.dir, 0, 1, 15618 * 16, fun j => if j < 12 then 316 + j else if j = 12 then 328 else 0⟩
    else ⟨.free, 0, 0, 0, fun _ => 0⟩
  ind b k := if b = 59 ∧ k < 256 then 60 + k else if b = 328 ∧ k < 233 then 329 + k else 0
  dir i k :=
    if k = 0 ∧ (i = 1 ∨ i = 3 ∨ i = 4) then ⟨i, ['.']⟩
    else if k = 1 ∧ (i = 1 ∨ i = 3 ∨ i = 4) then ⟨1, ['.', '.']⟩
    else if i = 1 ∧ k = 2 then ⟨2, ['f']⟩
    else if i = 1 ∧ k = 3 then ⟨3, ['a']⟩
    else if i = 1 ∧ k = 4 then ⟨4, ['b']⟩
    else if i = 3 ∨ i = 4 then ⟨2, Nat.toDigits 10 k⟩
    else ⟨0, []⟩

/-- A decimal name is never `.`. -/
theorem toDigits_ne_dot (k : ℕ) : Nat.toDigits 10 k ≠ ['.'] := by
  intro h
  have hdot : '.' ∈ Nat.toDigits 10 k := by
    rw [h]
    exact List.mem_singleton_self _
  exact absurd (Nat.isDigit_of_mem_toDigits (by decide) (by decide) hdot) (by decide)

theorem length_filter_range_le (m : ℕ) :
    ∀ n, ((List.range n).filter fun k => decide (m ≤ k)).length = n - m
  | 0 => by simp
  | n + 1 => by
    rw [List.range_succ, List.filter_append, List.length_append, length_filter_range_le m n]
    by_cases h : m ≤ n
    · simp only [List.filter_singleton, decide_eq_true h, cond_true, List.length_singleton]
      omega
    · simp only [List.filter_singleton, decide_eq_false h, cond_false, List.length_nil]
      omega

/-- In `/a` and `/b` every entry past `.` and `..` names `/f`. -/
theorem overflowImage_entries {i : ℕ} (hi : i = 3 ∨ i = 4) (n : ℕ) :
    ((List.range n).filter fun k =>
      decide ((overflowImage.dir i k).inum = 2 ∧ (overflowImage.dir i k).name ≠ ['.'])).length =
      n - 2 := by
  rw [← length_filter_range_le 2 n]
  congr 1
  refine List.filter_congr fun k _ => ?_
  have hi1 : i ≠ 1 := by omega
  rcases Nat.lt_or_ge k 2 with hk | hk
  · interval_cases k <;> rcases hi with rfl | rfl <;> simp [overflowImage]
  · have hk0 : k ≠ 0 := by omega
    have hk1 : k ≠ 1 := by omega
    simp [overflowImage, hk0, hk1, hi1, hi, hk, toDigits_ne_dot]

/-- Counted directory by directory: one name in the root, `17150` in `/a`, `15616` in `/b`. -/
theorem overflowImage_links_two : overflowImage.links 2 = 32767 := by
  have hcount : (fun dp => if (overflowImage.inode dp).type = .dir then
      ((List.range (overflowImage.nent dp)).filter fun k =>
        (overflowImage.dir dp k).inum = 2 ∧ (overflowImage.dir dp k).name ≠ ['.']).length
      else 0) =
      fun dp => if dp = 1 then 1 else if dp = 3 then 17150 else if dp = 4 then 15616 else 0 := by
    funext dp
    by_cases h1 : dp = 1
    · subst h1
      decide
    by_cases h3 : dp = 3
    · subst h3
      simp only [show (overflowImage.inode 3).type = .dir from rfl, if_true,
        show overflowImage.nent 3 = 17152 from rfl, overflowImage_entries (Or.inl rfl)]
      rfl
    by_cases h4 : dp = 4
    · subst h4
      simp only [show (overflowImage.inode 4).type = .dir from rfl, if_true,
        show overflowImage.nent 4 = 15618 from rfl, overflowImage_entries (Or.inr rfl)]
      rfl
    -- no other inode is a directory
    have hty : (overflowImage.inode dp).type ≠ .dir := by
      by_cases h2 : dp = 2
      · subst h2
        decide
      · simp [overflowImage, h1, h2, h3, h4]
    simp [hty, h1, h3, h4]
  unfold Disk.links
  rw [hcount]
  decide +kernel

/-- In `overflowImage` the link count of `/f` is the number of its names, `32767`.  Linking it
as `/g` succeeds and stores `short 32768 = -32768`; unlinking `/g` then panics. -/
theorem link_count_wraps :
    (overflowImage.inode 2).nlink = 32767 ∧ overflowImage.links 2 = 32767 ∧
      ∃ s, Steps.run (step 0) (init overflowImage 0) [(0, .link ['/', 'f'] ['/', 'g'])] = some s ∧
        s.disk.dir rootIno 5 = ⟨2, ['g']⟩ ∧ (s.disk.inode 2).nlink = -32768 ∧
        ((syscall 0 0 (.unlink ['/', 'g'])).run s).map Prod.fst = .error "unlink: nlink < 1" :=
  ⟨rfl, overflowImage_links_two, Steps.exists_of_any (by decide +kernel)⟩

end Xv6.Fs
