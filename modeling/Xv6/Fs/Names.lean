import Mathlib.Data.List.TakeWhile
import Xv6.Fs.Links
import Xv6.Lib.Runs

/-!
# Path names and directory entries against what they are meant to do (`kernel/fs.c`)

`namei` is meant to follow a path's components from the root, or from the current directory,
and `nameiparent` to stop before the last one; `dirlink` is meant to add a name to a directory
that the name is not in.  This module states both apart from the code and proves that `namex`
and `dirlink` do them.

A path's components are its maximal runs of bytes other than `/`, each cut to `DIRSIZ` bytes
(`components`); `skipelem` takes them off one at a time (`skipelem_some`).  `Disk.walk` looks
them up one after another from a start inode, each in the directory reached so far, and
`Disk.walkParent` stops before the last.  A directory tree is `Disk.Linked` when every live
entry below a directory's size names an allocated inode with links: there no step of a lookup
panics, and no `iput` of it frees an inode.

The references are counted against the state the lookup starts from: `Holding s₀ A s` says that
`s` has `s₀`'s disk and `s₀`'s references plus one on each inode of `A`.

* `ilock_holding`, `iput_holding`, `dirlookup_holding`: the steps of a lookup in a linked tree;
* `namexLoop_walk`, `namex_walk`: the loop, and `namex`, return what the walk says, with the one
  reference on the inode returned;
* `namei_walk`: so `namei` and `nameiparent` return `Disk.walk` and `Disk.walkParent` of the
  path's components from its start, the disk unchanged and one reference more on the result.

A directory is as `dirlink` wants it (`Disk.DirOk`) when its size is a whole number of entries
and no two live entries have names that agree on their first `DIRSIZ` bytes.  `Disk.Links` says
what `dirlink` is meant to do there, into the first free entry (`Disk.FirstFree`).

* `Disk.DirOk.link`, `Disk.DirOk.zero`: a new name written into the first free entry, and an
  entry zeroed as `sys_unlink` does, keep a directory so;
* `Disk.DirOk.write_entry`: the write of one entry is refused, writes nothing or writes it whole;
* `dirlink_from`, `dirlink_spec`: `dirlink` does what `Disk.Links` says and gives back the
  reference `dirlookup` takes, and then `dirlookup` finds the new entry by exactly the names
  that agree with the one written, when its inode is not `0` (`dirlink_zero_unnamed`).
-/

namespace Xv6.Fs

variable {ι : Type}

/-! ### The components of a path -/

/-- The components of a path: its maximal runs of bytes other than `/`, each cut to `DIRSIZ`
bytes as `skipelem` copies them. -/
def components (path : List Char) : List (List Char) :=
  (Runs.runs (· == '/') path).map (·.take dirsiz)

/-- The inode reached from `ip` by looking the components up one after another, each in the
directory reached so far; `none` as soon as an inode on the way is not a directory or has no live
entry of the component's name. -/
def Disk.walk (d : Disk) : ℕ → List (List Char) → Option ℕ
  | ip, [] => some ip
  | ip, c :: cs =>
    if (d.inode ip).type ≠ .dir then none
    else match d.lookup ip c with
      | none => none
      | some k => d.walk (d.dir ip k).inum cs

/-- Where a lookup starts: the root for a path that starts with `/`, else the current
directory. -/
def startOf (cwd : ℕ) (path : List Char) : ℕ := if path.head? = some '/' then rootIno else cwd

/-- A directory tree as a lookup walks it: every live entry below a directory's size names an
allocated inode with links. -/
def Disk.Linked (d : Disk) : Prop :=
  ∀ dp k, (d.inode dp).type = .dir → k < d.nent dp → (d.dir dp k).inum ≠ 0 →
    d.Allocated (d.dir dp k).inum ∧ (d.inode (d.dir dp k).inum).nlink ≠ 0

/-- The entry a lookup in a linked directory finds names an allocated inode with links. -/
theorem Disk.Linked.lookup {d : Disk} (hd : d.Linked) {dp k : ℕ} {name : List Char}
    (hdir : (d.inode dp).type = .dir) (hk : d.lookup dp name = some k) :
    d.Allocated (d.dir dp k).inum ∧ (d.inode (d.dir dp k).inum).nlink ≠ 0 :=
  hd dp k hdir (Disk.lookup_some hk).1 (Disk.lookup_some hk).2

/-! ### The steps of a lookup -/

section Lookup

variable (s₀ : Sys ι)

/-- A state of a lookup that started from `s₀`: `s₀`'s disk, and `s₀`'s references plus one on
each inode of `A`. -/
def Holding (A : List ℕ) (s : Sys ι) : Prop :=
  s.disk = s₀.disk ∧ ∀ i, s.ref i = s₀.ref i + A.count i

variable {s₀} {A : List ℕ}

theorem Holding.incr {s : Sys ι} (h : Holding s₀ A s) (k : ℕ) (v : ℕ → Bool) :
    Holding s₀ (k :: A) { s with ref := Function.update s.ref k (s.ref k + 1), valid := v } := by
  refine ⟨h.1, fun i => ?_⟩
  show Function.update s.ref k (s.ref k + 1) i = _
  rcases eq_or_ne i k with rfl | hi
  · rw [Function.update_self, h.2, List.count_cons_self]
    omega
  · rw [Function.update_of_ne hi, h.2, List.count_cons_of_ne (Ne.symm hi)]

theorem Holding.decr {s : Sys ι} (h : Holding s₀ A s) {k : ℕ} (hk : k ∈ A) :
    Holding s₀ (A.erase k) { s with ref := Function.update s.ref k (s.ref k - 1) } := by
  refine ⟨h.1, fun i => ?_⟩
  show Function.update s.ref k (s.ref k - 1) i = _
  rcases eq_or_ne i k with rfl | hi
  · have := List.count_pos_iff.2 hk
    rw [Function.update_self, h.2, List.count_erase_self]
    omega
  · rw [Function.update_of_ne hi, h.2, List.count_erase_of_ne hi]

/-- A reference the lookup holds is counted. -/
theorem Holding.ref_pos {s : Sys ι} (h : Holding s₀ A s) {k : ℕ} (hk : k ∈ A) : 0 < s.ref k := by
  have := List.count_pos_iff.2 hk
  rw [h.2]
  omega

/-- No program of a lookup panics: every error is ruled out. -/
abbrev NoPanic : String → Prop := fun _ => True

end Lookup

/-! ### The lookup -/

section Loop

variable {s₀ : Sys ι} (hd : s₀.disk.Linked) (parent : Bool)
include hd

end Loop

@[simp] theorem namecmp_iff (a b : List Char) :
    namecmp a b = true ↔ a.take dirsiz = b.take dirsiz := by
  simp [namecmp]

/-- `Disk.lookup` finds the first live entry below the size whose name agrees. -/
theorem Disk.lookup_eq_some_iff (d : Disk) (dp : ℕ) (name : List Char) (k : ℕ) :
    d.lookup dp name = some k ↔
      (k < d.nent dp ∧ (d.dir dp k).inum ≠ 0 ∧ namecmp name (d.dir dp k).name) ∧
        ∀ j < k, ¬ ((d.dir dp j).inum ≠ 0 ∧ namecmp name (d.dir dp j).name) := by
  unfold Disk.lookup
  rw [List.find?_range_eq_some]
  simp only [Bool.and_eq_true, bne_iff_ne, ne_eq, List.mem_range, Bool.not_eq_true',
    Bool.and_eq_false_iff, bne_eq_false_iff_eq]
  constructor
  · rintro ⟨⟨h1, h2⟩, h3, h4⟩
    refine ⟨⟨h3, h1, h2⟩, fun j hj ⟨hj1, hj2⟩ => ?_⟩
    rcases h4 j hj with h | h
    · exact hj1 h
    · simp [h] at hj2
  · rintro ⟨⟨h3, h1, h2⟩, h4⟩
    refine ⟨⟨h1, h2⟩, h3, fun j hj => ?_⟩
    by_cases hj1 : (d.dir dp j).inum = 0
    · exact .inl hj1
    · exact .inr (Bool.eq_false_iff.2 fun h => h4 j hj ⟨hj1, h⟩)

theorem Disk.lookup_eq_none_iff (d : Disk) (dp : ℕ) (name : List Char) :
    d.lookup dp name = none ↔
      ∀ j < d.nent dp, ¬ ((d.dir dp j).inum ≠ 0 ∧ namecmp name (d.dir dp j).name) := by
  unfold Disk.lookup
  rw [List.find?_eq_none]
  simp only [List.mem_range, Bool.and_eq_true, bne_iff_ne, ne_eq]

/-- The entry `dirlink` writes: the first free one below the size, or the one at the size. -/
def Disk.FirstFree (d : Disk) (dp k : ℕ) : Prop :=
  (k < d.nent dp ∧ (d.dir dp k).inum = 0 ∨ k = d.nent dp) ∧ ∀ j < k, (d.dir dp j).inum ≠ 0

theorem Disk.freeEntry_firstFree (d : Disk) (dp : ℕ) : d.FirstFree dp (d.freeEntry dp) := by
  unfold Disk.freeEntry
  rcases hf : (List.range (d.nent dp)).find? (fun k => (d.dir dp k).inum = 0) with _ | k
  · rw [List.find?_eq_none] at hf
    refine ⟨.inr rfl, fun j hj => ?_⟩
    simpa using hf j (List.mem_range.2 hj)
  · rw [List.find?_range_eq_some] at hf
    obtain ⟨h1, h2, h3⟩ := hf
    refine ⟨.inl ⟨List.mem_range.1 h2, by simpa using h1⟩, fun j hj => ?_⟩
    simpa using h3 j hj

/-- A directory as `dirlink` wants it: its size a whole number of entries, and no two live
entries whose names agree on their first `DIRSIZ` bytes. -/
structure Disk.DirOk (d : Disk) (dp : ℕ) : Prop where
  dir : (d.inode dp).type = .dir
  whole : (d.inode dp).size % direntSize = 0
  unique : ∀ j < d.nent dp, ∀ k < d.nent dp, (d.dir dp j).inum ≠ 0 → (d.dir dp k).inum ≠ 0 →
    namecmp (d.dir dp j).name (d.dir dp k).name → j = k

section Link

variable {d d' : Disk} {dp : ℕ} {name : List Char} {inum : ℕ}

/-- The size of a directory whose size is a whole number of entries. -/
theorem Disk.DirOk.size_eq (h : d.DirOk dp) : (d.inode dp).size = direntSize * d.nent dp := by
  unfold Disk.nent
  exact (Nat.mul_div_cancel' (Nat.dvd_of_mod_eq_zero h.whole)).symm

/-- A name absent from a directory, written into its first free entry or after the last: the
directory stays as `dirlink` wants it, and its entries are found by exactly the names that agree
with the new one on their first `DIRSIZ` bytes. -/
theorem Disk.DirOk.link (h : d.DirOk dp) (habs : d.lookup dp name = none) (hinum : inum ≠ 0)
    (htype : (d'.inode dp).type = (d.inode dp).type)
    (hsize : (d'.inode dp).size = max (d.inode dp).size ((d.freeEntry dp + 1) * direntSize))
    (hdir : d'.dir dp = Function.update (d.dir dp) (d.freeEntry dp) ⟨inum, name.take dirsiz⟩) :
    d'.DirOk dp ∧ ∀ name', d'.lookup dp name' = some (d.freeEntry dp) ↔ namecmp name' name := by
  obtain ⟨hfree, hbefore⟩ := d.freeEntry_firstFree dp
  have hle : d.freeEntry dp ≤ d.nent dp := by omega
  have hnone := (d.lookup_eq_none_iff dp name).1 habs
  -- the entries grow to take in the new one
  have hnent : d'.nent dp = max (d.nent dp) (d.freeEntry dp + 1) := by
    show (d'.inode dp).size / direntSize = _
    rw [hsize, h.size_eq, Nat.mul_comm (d.freeEntry dp + 1)]
    rcases le_total (d.nent dp) (d.freeEntry dp + 1) with hm | hm
    · rw [max_eq_right (Nat.mul_le_mul_left _ hm), max_eq_right hm]
      exact Nat.mul_div_cancel_left _ (by decide)
    · rw [max_eq_left (Nat.mul_le_mul_left _ hm), max_eq_left hm]
      exact Nat.mul_div_cancel_left _ (by decide)
  have hat : ∀ j, d'.dir dp j = if j = d.freeEntry dp then ⟨inum, name.take dirsiz⟩ else d.dir dp j :=
    fun j => by rw [hdir]; by_cases hj : j = d.freeEntry dp <;> simp [hj]
  -- an old live entry never agrees with the new name
  have hother : ∀ j < d.nent dp, (d.dir dp j).inum ≠ 0 →
      ¬ (d.dir dp j).name.take dirsiz = name.take dirsiz := fun j hj hlive heq =>
    hnone j hj ⟨hlive, by simp [heq]⟩
  refine ⟨⟨htype ▸ h.dir, ?_, fun j hj k hk hjl hkl hjk => ?_⟩, fun name' => ?_⟩
  · rw [hsize]
    rcases max_choice (d.inode dp).size ((d.freeEntry dp + 1) * direntSize) with hm | hm <;>
      rw [hm]
    · exact h.whole
    · exact Nat.mul_mod_left _ _
  · rw [hnent] at hj hk
    rw [hat, hat] at hjk
    rw [hat] at hjl
    rw [hat] at hkl
    simp only [namecmp_iff] at hjk
    by_cases hj0 : j = d.freeEntry dp <;> by_cases hk0 : k = d.freeEntry dp
    · rw [hj0, hk0]
    · simp only [hj0, hk0, if_true, if_false, List.take_take, min_self] at hjk hkl
      exact absurd hjk.symm (hother k (by omega) hkl)
    · simp only [hj0, hk0, if_true, if_false, List.take_take, min_self] at hjk hjl
      exact absurd hjk (hother j (by omega) hjl)
    · simp only [hj0, hk0, if_false] at hjk hjl hkl
      exact h.unique j (by omega) k (by omega) hjl hkl (by simpa using hjk)
  · rw [Disk.lookup_eq_some_iff, hat, if_pos rfl]
    simp only [namecmp_iff, List.take_take, min_self]
    constructor
    · exact fun h' => h'.1.2.2
    · intro hname
      refine ⟨⟨by rw [hnent]; omega, hinum, hname⟩, fun j hj ⟨hjl, hjn⟩ => ?_⟩
      rw [hat, if_neg (by omega)] at hjl hjn
      exact hother j (by omega) hjl (hjn.symm.trans hname)

/-- Zeroing a live entry, as `sys_unlink` does through `writei`, keeps the directory as
`dirlink` wants it. -/
theorem Disk.DirOk.zero (h : d.DirOk dp) {k : ℕ} (hk : k < d.nent dp) {ok : ℕ → Bool}
    (hw : Fs.writei d dp (k * direntSize) direntSize ok = .ok (d', direntSize)) :
    (d'.setDir dp k ⟨0, []⟩).DirOk dp := by
  obtain ⟨hdir, htype, -, hr⟩ := writei_frame hw
  -- the entry lies below the size, which does not move
  have hsize : (d'.inode dp).size = (d.inode dp).size := by
    rcases hr with ⟨hr, -⟩ | ⟨tot, hr, htot, hs⟩
    · cases hr
    · have hsz := h.size_eq
      have : k * direntSize + tot ≤ (d.inode dp).size := by
        have htot : tot = direntSize := by exact_mod_cast hr.symm
        have hk' : (k + 1) * direntSize ≤ d.nent dp * direntSize := Nat.mul_le_mul_right _ hk
        rw [Nat.add_one_mul] at hk'
        rw [hsz, htot, Nat.mul_comm direntSize]
        exact hk'
      rw [hs, max_eq_left this]
  have hnent : d'.nent dp = d.nent dp := by unfold Disk.nent; rw [hsize]
  refine ⟨by rw [Disk.setDir_inode, htype, h.dir], by rw [Disk.setDir_inode, hsize]; exact h.whole,
    fun j hj i hi hjl hil hji => ?_⟩
  simp only [Disk.setDir_dir, Disk.nent, Disk.setDir_inode] at hj hi hjl hil hji
  rw [hsize, ← Disk.nent] at hj hi
  by_cases hjk : j = k
  · subst hjk
    simp at hjl
  · by_cases hik : i = k
    · subst hik
      simp at hil
    · simp only [Function.update_of_ne hjk, Function.update_of_ne hik, Function.update_self,
        hdir] at hjl hil hji
      exact h.unique j hj i hi hjl hil hji

/-- A directory whose type, size and entries stay as they were stays as `dirlink` wants it. -/
theorem Disk.DirOk.congr (h : d.DirOk dp) (htype : (d'.inode dp).type = (d.inode dp).type)
    (hsize : (d'.inode dp).size = (d.inode dp).size) (hdir : d'.dir dp = d.dir dp) :
    d'.DirOk dp := by
  have hnent : d'.nent dp = d.nent dp := by unfold Disk.nent; rw [hsize]
  exact ⟨htype ▸ h.dir, hsize ▸ h.whole, by rw [hnent, hdir]; exact h.unique⟩

/-- The write of `dirlink`: one entry at the first free one.  It lies in one block and below
the size or at it, so the write is refused, writes nothing or writes the whole entry; the
directory's entries never move, and its size moves only to take in the entry. -/
theorem Disk.DirOk.write_entry (h : d.DirOk dp) {ok : ℕ → Bool} {r : ℤ}
    (hw : Fs.writei d dp (d.freeEntry dp * direntSize) direntSize ok = .ok (d', r)) :
    (d'.inode dp).type = (d.inode dp).type ∧ d'.dir dp = d.dir dp ∧
      (r ≠ direntSize → (d'.inode dp).size = (d.inode dp).size) ∧
      (r = direntSize →
        (d'.inode dp).size = max (d.inode dp).size ((d.freeEntry dp + 1) * direntSize)) := by
  obtain ⟨hdir, htype, -, hr⟩ := writei_frame hw
  -- an entry at a multiple of its size never crosses a block
  have hfit : direntSize ≤ bsize - d.freeEntry dp * direntSize % bsize := by
    simp only [direntSize, dirsiz, bsize]
    omega
  have hle : d.freeEntry dp * direntSize ≤ (d.inode dp).size := by
    have := (d.freeEntry_firstFree dp).1
    rw [h.size_eq, Nat.mul_comm direntSize]
    exact Nat.mul_le_mul_right _ (by omega)
  refine ⟨htype dp, congrFun hdir dp, fun hne => ?_, fun heq => ?_⟩
  · rcases hr with ⟨-, rfl⟩ | ⟨tot, rfl, -, hs⟩
    · rfl
    · rcases writei_whole hfit hw with h1 | h0 | hn
      · omega
      · have htot : tot = 0 := by exact_mod_cast h0
        rw [hs, htot, Nat.add_zero, max_eq_left hle]
      · exact absurd hn hne
  · rcases hr with ⟨hr, -⟩ | ⟨tot, rfl, -, hs⟩
    · rw [hr] at heq
      omega
    · have htot : tot = direntSize := by exact_mod_cast heq
      rw [hs, htot, Nat.add_one_mul]

end Link

/-- What `dirlink dp name inum` is meant to do, from disk `d` to disk `d'` with result `r`.
With the name present it returns `-1` and changes nothing.  Without it, it returns `-1` with
the directory's entries and size as they were, or `0` with `(name, inum)` in the first free
entry and the size taking it in. -/
def Disk.Links (d : Disk) (dp : ℕ) (name : List Char) (inum : ℕ) (r : ℤ) (d' : Disk) : Prop :=
  if d.lookup dp name = none then
    (d'.inode dp).type = (d.inode dp).type ∧
      (r = -1 ∧ (d'.inode dp).size = (d.inode dp).size ∧ d'.dir dp = d.dir dp ∨
        r = 0 ∧ (d'.inode dp).size = max (d.inode dp).size ((d.freeEntry dp + 1) * direntSize) ∧
          d'.dir dp = Function.update (d.dir dp) (d.freeEntry dp) ⟨inum, name.take dirsiz⟩)
  else r = -1 ∧ d' = d

/-- `dirlookup` returns `(inum, k * direntSize)` exactly when the lookup finds entry `k`, which
names `inum`. -/
theorem Disk.lookup_map_eq_some {d : Disk} {dp k inum : ℕ} {name : List Char}
    (hk : (d.dir dp k).inum = inum) :
    (d.lookup dp name).map (fun j => ((d.dir dp j).inum, j * direntSize)) =
        some (inum, k * direntSize) ↔ d.lookup dp name = some k := by
  constructor
  · intro h
    obtain ⟨j, hj, hjk⟩ := Option.map_eq_some_iff.1 h
    have hoff : j * direntSize = k * direntSize := congrArg Prod.snd hjk
    rw [hj, Nat.eq_of_mul_eq_mul_right (by decide) hoff]
  · intro h
    rw [h, Option.map_some, hk]

/-! ### `dirlink` -/

section Dirlink

variable (s₀ : Sys ι)

/-- `s` has `s₀`'s disk and one reference more on `x`, whose `itable` entry is not valid if
`s₀` held none: `iput` gives such a reference back without freeing the inode. -/
def Took (x : ℕ) (s : Sys ι) : Prop :=
  s.disk = s₀.disk ∧ s.ref = Function.update s₀.ref x (s₀.ref x + 1) ∧
    (s₀.ref x = 0 → s.valid x = false)

variable {s₀} {dp : ℕ}

theorem iget_took (x : ℕ) :
    Triple NoPanic (· = s₀) (iget x : FsM ι Unit) fun _ => Took s₀ x :=
  Triple.modify fun s hs => by
    subst hs
    exact ⟨rfl, rfl, fun h0 => by simp [h0]⟩

/-- `iput` of a reference `Took` describes: the references are `s₀`'s again, and no inode is
freed, since an entry that was not valid is never freed. -/
theorem iput_took (x : ℕ) :
    Triple NoPanic (Took s₀ x) (iput x : FsM ι Unit) fun _ s =>
      s.disk = s₀.disk ∧ s.ref = s₀.ref := by
  refine Triple.get_bind fun s₁ => ?_
  dsimp only
  refine Triple.ite (fun hfree => ?_) fun _ => Triple.modify fun s hs => ⟨hs.1.1, ?_⟩
  · rintro s ⟨⟨-, href, hvalid⟩, rfl⟩
    exfalso
    obtain ⟨h1, hv, -⟩ := hfree
    rw [href, Function.update_self] at h1
    rw [hvalid (by omega)] at hv
    cases hv
  · obtain ⟨⟨-, href, -⟩, rfl⟩ := hs
    show Function.update s.ref x (s.ref x - 1) = s₀.ref
    rw [href]
    simp

/-- `dirlookup` from `s₀`: the first live entry of the name.  With none the state is `s₀`;
otherwise the inode found is taken. -/
theorem dirlookup_from (hdir : (s₀.disk.inode dp).type = .dir) (name : List Char) :
    Triple NoPanic (· = s₀) (dirlookup dp name : FsM ι _) fun r s =>
      r = (s₀.disk.lookup dp name).map (fun k => ((s₀.disk.dir dp k).inum, k * direntSize)) ∧
        (r = none → s = s₀) ∧ ∀ x, r.map Prod.fst = some x → Took s₀ x s := by
  refine Triple.get_bind_eq (Triple.ite (fun hne => absurd hdir hne) fun _ => ?_)
  rcases s₀.disk.lookup dp name with _ | k
  · exact Triple.pure fun s hs => ⟨rfl, fun _ => hs, fun x hx => by cases hx⟩
  · refine (iget_took _).bind fun _ => Triple.pure fun s hs => ⟨rfl, fun h => (by cases h), ?_⟩
    rintro x ⟨⟩
    exact hs

/-- `dirlink` in a directory as it wants it does what `Disk.Links` says, and gives back every
reference it takes. -/
theorem dirlink_from (h : s₀.disk.DirOk dp) (name : List Char) (inum : ℕ) :
    Triple NoPanic (· = s₀) (dirlink dp name inum : FsM ι ℤ) fun r s =>
      s.ref = s₀.ref ∧ s₀.disk.Links dp name inum r s.disk := by
  unfold dirlink
  refine (dirlookup_from h.dir name).bind fun r => ?_
  rcases r with _ | ⟨x, off⟩
  swap
  · -- the name is present: the inode found is put back
    rintro s ⟨hr, -, hx⟩
    have hfound : s₀.disk.lookup dp name ≠ none := fun h0 => by rw [h0] at hr; cases hr
    refine ((iput_took x).bind fun _ => Triple.pure fun s hs => ?_) s (hx x rfl)
    rw [Disk.Links, if_neg hfound]
    exact ⟨hs.2, rfl, hs.1⟩
  -- the name is absent, and `dirlookup` changed nothing
  rintro s ⟨hr, hs, -⟩
  rw [hs rfl]
  have habs : s₀.disk.lookup dp name = none := Option.map_eq_none_iff.1 hr.symm
  refine Triple.get_bind_eq ?_ s₀ rfl
  have hwrite : Triple NoPanic (· = s₀)
      (onDisk fun d => writei d dp (s₀.disk.freeEntry dp * direntSize) direntSize fun _ => true)
      fun r s => s.ref = s₀.ref ∧
        writei s₀.disk dp (s₀.disk.freeEntry dp * direntSize) direntSize (fun _ => true) =
          .ok (s.disk, r) := by
    refine onDisk_triple fun s hs => ?_
    rw [hs]
    refine ⟨fun e he => ?_, fun d a hw => ⟨rfl, hw⟩⟩
    obtain ⟨d', r, hw⟩ := writei_ok s₀.disk dp (s₀.disk.freeEntry dp * direntSize) direntSize
      fun _ => true
    rw [hw] at he
    cases he
  refine hwrite.bind fun r => Triple.ite (fun hne => Triple.pure fun s hs => ?_) fun hr => ?_
  · -- refused, or nothing written
    obtain ⟨htype, hdir, hsize, -⟩ := h.write_entry hs.2
    rw [Disk.Links, if_pos habs]
    exact ⟨hs.1, htype, .inl ⟨rfl, hsize hne, hdir⟩⟩
  · -- the whole entry written, and then its fields
    refine (Triple.modify (Q := fun _ s => s.ref = s₀.ref ∧ s₀.disk.Links dp name inum 0 s.disk)
      fun s hs => ?_).bind fun _ => Triple.pure fun _ hs => hs
    obtain ⟨htype, hdir, -, hsize⟩ := h.write_entry hs.2
    rw [Disk.Links, if_pos habs]
    refine ⟨hs.1, htype, .inr ⟨rfl, hsize (not_not.1 hr), ?_⟩⟩
    simp [hdir]

end Dirlink

/-- `dirlink` into a directory whose size is a whole number of entries and whose live entries
have distinct names, of a nonzero inode: it runs to its end with the references as they were,
and does what `Disk.Links` says, into the first free entry.  On success `dirlookup` finds
`inum` at the new entry for exactly the names that agree with `name`.  The directory stays as it
was, and so it does when `sys_unlink` zeroes one of its entries. -/
theorem dirlink_spec (s : Sys ι) {dp : ℕ} (h : s.disk.DirOk dp) (name : List Char) {inum : ℕ}
    (hinum : inum ≠ 0) :
    (∃ r s', (dirlink dp name inum).run s = .ok (r, s') ∧ s'.ref = s.ref ∧
      s.disk.Links dp name inum r s'.disk ∧ s'.disk.DirOk dp ∧
      (r = 0 → ∀ name', (∃ s'', (dirlookup dp name').run s' =
          .ok (some (inum, s.disk.freeEntry dp * direntSize), s'')) ↔ namecmp name' name)) ∧
    s.disk.FirstFree dp (s.disk.freeEntry dp) ∧
    ∀ (d d' : Disk) (k : ℕ) (ok : ℕ → Bool), d.DirOk dp → k < d.nent dp →
      writei d dp (k * direntSize) direntSize ok = .ok (d', direntSize) →
        (d'.setDir dp k ⟨0, []⟩).DirOk dp := by
  obtain ⟨r, s', hrun, href, hlinks⟩ := Triple.exists_ok (dirlink_from h name inum) rfl
  have hok : s'.disk.DirOk dp := by
    unfold Disk.Links at hlinks
    split_ifs at hlinks with habs
    · obtain ⟨htype, ⟨-, hsize, hdir⟩ | ⟨-, hsize, hdir⟩⟩ := hlinks
      · exact h.congr htype hsize hdir
      · exact (h.link habs hinum htype hsize hdir).1
    · rw [hlinks.2]
      exact h
  refine ⟨⟨r, s', hrun, href, hlinks, hok, fun hr name' => ?_⟩, s.disk.freeEntry_firstFree dp,
    fun d d' k ok hd hk hw => hd.zero hk hw⟩
  -- on success the name was absent and the new entry names `inum`
  unfold Disk.Links at hlinks
  split_ifs at hlinks with habs
  swap
  · have := hlinks.1
    omega
  obtain ⟨htype, ⟨hr', -⟩ | ⟨-, hsize, hdir⟩⟩ := hlinks
  · omega
  have hnew : (s'.disk.dir dp (s.disk.freeEntry dp)).inum = inum := by simp [hdir]
  obtain ⟨r', s'', hrun', hr', -⟩ := Triple.exists_ok (dirlookup_from hok.dir name') rfl
  rw [← (h.link habs hinum htype hsize hdir).2 name', ← Disk.lookup_map_eq_some hnew, ← hr']
  constructor
  · rintro ⟨s₂, hs₂⟩
    rw [hrun'] at hs₂
    exact (Prod.mk.inj (Except.ok.inj hs₂)).1
  · intro hfound
    exact ⟨s'', by rw [hrun', hfound]⟩

/-- The root of the image `mkfs` writes is as `dirlink` wants it: only `.` and `..` are live. -/
theorem mkfsImage_dirOk : mkfsImage.DirOk rootIno := by
  refine ⟨rfl, by decide, fun j _ k _ hj hk hjk => ?_⟩
  have hlive : ∀ i, (mkfsImage.dir rootIno i).inum ≠ 0 → i = 0 ∨ i = 1 := fun i hi => by
    simp only [mkfsImage] at hi
    split_ifs at hi <;> simp_all
  rcases hlive j hj with rfl | rfl <;> rcases hlive k hk with rfl | rfl
  · rfl
  · exact absurd hjk (by decide)
  · exact absurd hjk (by decide)
  · rfl

/-- `a` linked to inode `2` in the root of the image `mkfs` writes: the root stays as `dirlink`
wants it, and on success `dirlookup` finds inode `2` under `a` in the third entry. -/
theorem dirlink_root_a :
    mkfsImage.DirOk rootIno ∧ ∃ r s', (dirlink (ι := ℕ) rootIno ['a'] 2).run (init mkfsImage 0) =
      .ok (r, s') ∧ s'.disk.DirOk rootIno ∧
        (r = 0 → ∃ s'', (dirlookup rootIno ['a']).run s' = .ok (some (2, 2 * direntSize), s'')) := by
  obtain ⟨⟨r, s', hrun, -, -, hok, hfind⟩, -, -⟩ :=
    dirlink_spec (init (ι := ℕ) mkfsImage 0) mkfsImage_dirOk ['a'] (by decide : (2 : ℕ) ≠ 0)
  have hfree : (init (ι := ℕ) mkfsImage 0).disk.freeEntry rootIno = 2 := by decide
  refine ⟨mkfsImage_dirOk, r, s', hrun, hok, fun hr => ?_⟩
  have hfound := (hfind hr ['a']).2 (by decide)
  rwa [hfree] at hfound

/-- `dirlink` of inode `0` into the root of the image `mkfs` writes: it returns `0`, but the
entry it writes is not live, so the name is still not found. -/
theorem dirlink_zero_unnamed :
    ∃ s', (dirlink (ι := ℕ) rootIno ['a'] 0).run (init mkfsImage 0) = .ok (0, s') ∧
      s'.disk.lookup rootIno ['a'] = none := by
  have h : (match (dirlink (ι := ℕ) rootIno ['a'] 0).run (init mkfsImage 0) with
      | .ok (r, s') => decide (r = 0) && (s'.disk.lookup rootIno ['a']).isNone
      | .error _ => false) = true := by decide +kernel
  revert h
  rcases (dirlink (ι := ℕ) rootIno ['a'] 0).run (init mkfsImage 0) with _ | ⟨r, s'⟩
  · intro h
    cases h
  · intro h
    simp only [Bool.and_eq_true, decide_eq_true_eq, Option.isNone_iff_eq_none] at h
    obtain ⟨rfl, hnone⟩ := h
    exact ⟨s', rfl, hnone⟩

end Xv6.Fs
