import Xv6.Fs.Disk

/-!
# The file system image of `mkfs` (`mkfs/mkfs.c`)

`mkfs fs.img files...` zeroes `FSSIZE` blocks, allocates the root directory with `.` and `..`,
and for each input file allocates an inode, appends its entry to the root directory and appends
its contents.  Inodes come from the counter `freeinode` and blocks from the counter `freeblock`,
which starts after the metadata blocks; `iappend` takes a block from it for every block index,
and for the indirect block, that has none yet.  At the end the root directory's size is rounded
and `balloc(freeblock)` writes the bitmap.

The image is the `Disk` of `Fs/Disk.lean`, the disk as the kernel reads it.  An input file is its
path and its length; its bytes are not kept, as the kernel model keeps no file data, but every
`read` chunk of at most `BSIZE` bytes is appended as `main` appends it.  A failed assertion, and
`rsect` of a block beyond the image (which `die`s), end the run with `.error`.  `State.view` is the
image with the bitmap that `balloc(freeblock)` writes; while `mkfs` runs it reads each taken block
as in use.

* `Image`: what holds between the steps: the view satisfies the kernel's `BlockInv`, the
  blocks from `freeblock` on are zero, and each inode holds a block for every block index below
  its size and none from its size on;
* `mkfs_image`: a run that ends without an assertion failure or `die` writes an image that
  satisfies `BlockInv`, whose bitmap marks exactly the blocks below `freeblock`, whose root
  directory holds `.`, `..` and one entry per input file, and whose other inodes hold a block for
  every block index below their size;
* `mkfs_root_hole`: the rounding of the root directory's size goes one block too far when the
  entries fill whole blocks: the root directory then has no block at the index below its size.
-/

namespace Xv6.Mkfs

open Fs (Disk Dinode Dirent IType BlockInv Slot)

/-! ### The model -/

/-- `mkfs`'s globals and the image it writes, the bitmap still zero until `balloc`. -/
structure State where
  disk : Disk
  freeinode : ℕ
  freeblock : ℕ

/-- A zeroed `struct dinode`. -/
def zeroInode : Dinode := ⟨.free, 0, 0, 0, fun _ => 0⟩

/-- The image after `wsect(i, zeroes)` for every block. -/
def zeroDisk : Disk where
  used _ := false
  inode _ := zeroInode
  ind _ _ := 0
  dir _ _ := ⟨0, []⟩

/-- The image with the bitmap that `balloc(freeblock)` writes: the first `freeblock` blocks in use. -/
def State.view (s : State) : Disk := { s.disk with used := fun b => decide (b < s.freeblock) }

/-- `ialloc(type)`: the next inode number, written with `type`, one link, size 0 and no blocks. -/
def ialloc (s : State) (type : IType) : State × ℕ :=
  ({ s with
      disk := s.disk.setInode s.freeinode ⟨type, 0, 1, 0, fun _ => 0⟩
      freeinode := s.freeinode + 1 }, s.freeinode)

/-- `din.addrs[j] = xint(freeblock++)`. -/
def State.takeAddr (s : State) (inum j : ℕ) : State :=
  { s with disk := s.disk.setAddr inum j s.freeblock, freeblock := s.freeblock + 1 }

/-- `indirect[k] = xint(freeblock++)`, written back with `wsect`. -/
def State.takeEntry (s : State) (ib k : ℕ) : State :=
  { s with disk := s.disk.setInd ib k s.freeblock, freeblock := s.freeblock + 1 }

/-- `if(din.addrs[NDIRECT] == 0) din.addrs[NDIRECT] = xint(freeblock++)`. -/
def indirectFor (s : State) (inum : ℕ) : State :=
  if (s.disk.inode inum).addrs nDirect = 0 then s.takeAddr inum nDirect else s

/-- The block `iappend` writes for block index `fbn` of inode `inum`, each missing address taken
from `freeblock`.  `rsect` of the indirect block fails beyond the image. -/
def blockFor (s : State) (inum fbn : ℕ) : Except String (State × ℕ) :=
  if fbn < nDirect then
    if (s.disk.inode inum).addrs fbn = 0 then .ok (s.takeAddr inum fbn, s.freeblock)
    else .ok (s, (s.disk.inode inum).addrs fbn)
  else
    let s1 := indirectFor s inum
    let ib := (s1.disk.inode inum).addrs nDirect
    if fsSize ≤ ib then .error "read"
    else if s1.disk.ind ib (fbn - nDirect) = 0 then
      .ok (s1.takeEntry ib (fbn - nDirect), s1.freeblock)
    else .ok (s1, s1.disk.ind ib (fbn - nDirect))

/-- The loop of `iappend` on inode `inum`: `n` bytes left to append at offset `off`; the offset
reached.  Each turn appends at least one byte, so `n` turns of fuel are enough. -/
def appendLoop (inum : ℕ) : ℕ → State → ℕ → ℕ → Except String (State × ℕ)
  | 0, s, _, off => .ok (s, off)
  | fuel + 1, s, n, off =>
    if n = 0 then .ok (s, off)
    else if maxFile ≤ off / bsize then .error "assertion fbn < MAXFILE failed"
    else
      match blockFor s inum (off / bsize) with
      | .error e => .error e
      | .ok (s, x) =>
        -- `rsect(x, buf)` of a block beyond the image dies
        if fsSize ≤ x then .error "read"
        else
          let n1 := min n ((off / bsize + 1) * bsize - off)
          appendLoop inum fuel s (n - n1) (off + n1)

/-- `iappend(inum, p, n)`: append `n` bytes and write the new size back. -/
def iappend (s : State) (inum n : ℕ) : Except String State :=
  match appendLoop inum n s n (s.disk.inode inum).size with
  | .error e => .error e
  | .ok (s, off) => .ok { s with disk := s.disk.setInode inum { s.disk.inode inum with size := off } }

/-- `iappend(dp, &de, sizeof(de))`: the entry lands at index `off / sizeof(de)`. -/
def appendDirent (s : State) (dp : ℕ) (de : Dirent) : Except String State :=
  match iappend s dp direntSize with
  | .error e => .error e
  | .ok s' => .ok { s' with disk := s'.disk.setDir dp ((s.disk.inode dp).size / direntSize) de }

/-- `while((cc = read(fd, buf, sizeof(buf))) > 0) iappend(inum, buf, cc)` on a file of `len`
bytes: each `read` returns `BSIZE` bytes or what is left. -/
def appendFile (inum : ℕ) : ℕ → State → ℕ → Except String State
  | 0, s, _ => .ok s
  | fuel + 1, s, len =>
    if len = 0 then .ok s
    else
      match iappend s inum (min len bsize) with
      | .error e => .error e
      | .ok s => appendFile inum fuel s (len - min len bsize)

/-- The name of an input file in the image: without a leading `user/`. -/
def shortname (path : List Char) : List Char :=
  if ['u', 's', 'e', 'r', '/'].isPrefixOf path then path.drop 5 else path

/-- The name an input file gets: its short name less a leading `_`, as the binaries are named
`_rm`, `_cat`, ... -/
def dirName (path : List Char) : List Char :=
  if (shortname path).head? = some '_' then (shortname path).drop 1 else shortname path

/-- One input file of `main`'s loop: its inode, its entry in the root directory and its
contents. -/
def addFile (s : State) (path : List Char) (len : ℕ) : Except String State :=
  if '/' ∈ shortname path then .error "assertion index(shortname, slash) == 0 failed"
  else
    let (s, inum) := ialloc s .file
    -- `strncpy(de.name, shortname, DIRSIZ)`
    match appendDirent s rootIno ⟨inum, (dirName path).take dirsiz⟩ with
    | .error e => .error e
    | .ok s => appendFile inum len s len

/-- The input files in order. -/
def addFiles (s : State) : List (List Char × ℕ) → Except String State
  | [] => .ok s
  | (path, len) :: files =>
    match addFile s path len with
    | .error e => .error e
    | .ok s => addFiles s files

/-- The root directory's size as `main` fixes it after the last file: `((off/BSIZE) + 1) * BSIZE`. -/
def fixRoot (s : State) : State :=
  let ip := s.disk.inode rootIno
  { s with disk := s.disk.setInode rootIno { ip with size := (ip.size / bsize + 1) * bsize } }

/-- `balloc(used)`: the bitmap marks the first `used` blocks. -/
def balloc (s : State) : Except String State :=
  if bsize * 8 ≤ s.freeblock then .error "assertion used < BSIZE*8 failed"
  else .ok { s with disk := s.view }

/-- `main` on the input files: the image, with the counters where the run left them. -/
def mkfs (files : List (List Char × ℕ)) : Except String State :=
  let (s, rootino) := ialloc ⟨zeroDisk, 1, nMeta⟩ .dir
  if rootino ≠ rootIno then .error "assertion rootino == ROOTINO failed"
  else
    match appendDirent s rootino ⟨rootino, ['.']⟩ with
    | .error e => .error e
    | .ok s =>
      match appendDirent s rootino ⟨rootino, ['.', '.']⟩ with
      | .error e => .error e
      | .ok s =>
        match addFiles s files with
        | .error e => .error e
        | .ok s => balloc (fixRoot s)

/-! ### The view and the slots -/

section View

variable {s : State}

@[simp] theorem view_inode (s : State) : s.view.inode = s.disk.inode := rfl
@[simp] theorem view_ind (s : State) : s.view.ind = s.disk.ind := rfl
@[simp] theorem view_dir (s : State) : s.view.dir = s.disk.dir := rfl
@[simp] theorem view_used (s : State) (b : ℕ) : s.view.used b = decide (b < s.freeblock) := rfl

/-- The bitmap holds no block: the view reads the same slots as the image. -/
theorem view_get (s : State) (sl : Slot) : s.view.get sl = s.disk.get sl := rfl

/-- The kernel's `balloc` on the view takes `freeblock`. -/
theorem firstFree_view (h : s.freeblock < fsSize) : s.view.firstFree = some s.freeblock := by
  unfold Disk.firstFree
  simp [h]

/-- Taking `freeblock` while it is still zero only moves the bitmap's bound. -/
theorem view_take (hblank : s.disk.ind s.freeblock = fun _ => 0) :
    s.view.take s.freeblock = ({ s with freeblock := s.freeblock + 1 } : State).view := by
  unfold Disk.take State.view
  congr 1
  · funext b
    by_cases hb : b = s.freeblock
    · simp [hb]
    · simp only [Function.update_of_ne hb]
      simp only [decide_eq_decide]
      omega
  · rw [← hblank, Function.update_eq_self]

theorem view_takeAddr {i j : ℕ} (hblank : s.disk.ind s.freeblock = fun _ => 0) :
    (s.takeAddr i j).view = (s.view.take s.freeblock).setAddr i j s.freeblock := by
  rw [view_take hblank]
  rfl

theorem view_takeEntry {ib k : ℕ} (hblank : s.disk.ind s.freeblock = fun _ => 0) :
    (s.takeEntry ib k).view = (s.view.take s.freeblock).setInd ib k s.freeblock := by
  rw [view_take hblank]
  rfl

@[simp] theorem takeAddr_freeblock (s : State) (i j : ℕ) :
    (s.takeAddr i j).freeblock = s.freeblock + 1 := rfl
@[simp] theorem takeAddr_freeinode (s : State) (i j : ℕ) :
    (s.takeAddr i j).freeinode = s.freeinode := rfl
@[simp] theorem takeEntry_freeblock (s : State) (ib k : ℕ) :
    (s.takeEntry ib k).freeblock = s.freeblock + 1 := rfl
@[simp] theorem takeEntry_freeinode (s : State) (ib k : ℕ) :
    (s.takeEntry ib k).freeinode = s.freeinode := rfl

end View

/-- The slot `bmap` reads for block index `fbn` of inode `i`. -/
def slotOf (i fbn : ℕ) : Slot := if fbn < nDirect then .direct i fbn else .entry i (fbn - nDirect)

@[simp] theorem slotOf_ino (i fbn : ℕ) : (slotOf i fbn).ino = i := by
  unfold slotOf
  split <;> rfl

theorem slotOf_ne_indirect (i fbn k : ℕ) : slotOf i fbn ≠ .indirect k := by
  unfold slotOf
  split <;> simp

theorem slotOf_inj {i a b : ℕ} (h : slotOf i a = slotOf i b) : a = b := by
  unfold slotOf at h
  split_ifs at h <;> simp at h <;> omega

/-- Beyond `MAXFILE` there is no slot: `bmap` panics there. -/
theorem get_slotOf_of_le {d : Disk} {i fbn : ℕ} (h : maxFile ≤ fbn) : d.get (slotOf i fbn) = 0 := by
  have hd : ¬ fbn < nDirect := by unfold maxFile at h; omega
  rw [slotOf, if_neg hd]
  have hk : ¬ fbn - nDirect < nIndirect := by unfold maxFile at h; omega
  simp [Disk.get, hk]

theorem slot_addr_nDirect (i : ℕ) : Slot.addr i nDirect = .indirect i := if_neg (lt_irrefl _)

/-- Inode `i` of `d` holds a block for every block index below `size` and none from `size` on:
`readi` below `size` never makes `bmap` allocate. -/
def Covers (d : Disk) (i size : ℕ) : Prop :=
  ∀ fbn < maxFile, (d.get (slotOf i fbn) ≠ 0 ↔ fbn * bsize < size)

section Covers

variable {d d' : Disk} {i : ℕ}

theorem Covers.congr {size : ℕ} (hc : Covers d i size)
    (hget : ∀ fbn, d'.get (slotOf i fbn) = d.get (slotOf i fbn)) : Covers d' i size := by
  intro fbn hf
  rw [hget]
  exact hc fbn hf

theorem covers_zero (h0 : ∀ fbn, d.get (slotOf i fbn) = 0) : Covers d i 0 := by
  intro fbn _
  simp [h0]

/-- Filling the slot of the block index at `off` covers the bytes up to `off + n1`, as long as
they stay in that block: the other block indices keep their side of the bound. -/
theorem Covers.extend {off n1 : ℕ} (hc : Covers d i off) (hn1 : 0 < n1)
    (hle : off + n1 ≤ (off / bsize + 1) * bsize) (hslot : d'.get (slotOf i (off / bsize)) ≠ 0)
    (hother : ∀ fbn, fbn ≠ off / bsize → d'.get (slotOf i fbn) = d.get (slotOf i fbn)) :
    Covers d' i (off + n1) := by
  intro fbn hf
  by_cases he : fbn = off / bsize
  · subst he
    have : off / bsize * bsize ≤ off := Nat.div_mul_le_self off bsize
    exact ⟨fun _ => by omega, fun _ => hslot⟩
  · rw [hother fbn he, hc fbn hf]
    rcases Nat.lt_or_gt_of_ne he with hlt | hgt
    · -- an earlier block index lies wholly below `off`
      have hend : (fbn + 1) * bsize ≤ off := (Nat.le_div_iff_mul_le (by decide)).1 hlt
      have hb : 0 < bsize := by decide
      rw [Nat.add_one_mul] at hend
      omega
    · -- a later one starts at or after the end of the block at `off`
      have : (off / bsize + 1) * bsize ≤ fbn * bsize := Nat.mul_le_mul_right _ hgt
      omega

end Covers

/-! ### What holds between the steps -/

/-- What holds of `mkfs`'s state between its steps, whatever the inodes' sizes say. -/
structure Base (s : State) : Prop where
  /-- With the bitmap `balloc(freeblock)` writes, the image satisfies the kernel's invariant. -/
  blocks : BlockInv s.view
  cap : s.freeblock ≤ fsSize
  /-- The blocks from `freeblock` on are still zero. -/
  blank : ∀ b, s.freeblock ≤ b → s.disk.ind b = fun _ => 0
  /-- The inodes from `freeinode` on are still zero. -/
  fresh : ∀ i, s.freeinode ≤ i → s.disk.inode i = zeroInode

/-- From `s` to `s'` nothing but blocks changes, and blocks move only in the slots `T`. -/
structure Moves (s s' : State) (T : Slot → Prop) : Prop where
  blocksOnly : s.disk.BlocksOnly s'.disk
  freeinode : s'.freeinode = s.freeinode
  other : ∀ sl, ¬ T sl → s'.disk.get sl = s.disk.get sl

section Base

variable {s s' s'' : State}

theorem Moves.refl (s : State) (T : Slot → Prop) : Moves s s T :=
  ⟨.refl _, rfl, fun _ _ => rfl⟩

theorem Moves.trans {T : Slot → Prop} (h : Moves s s' T) (h' : Moves s' s'' T) : Moves s s'' T :=
  ⟨h.blocksOnly.trans h'.blocksOnly, h'.freeinode.trans h.freeinode,
    fun sl hsl => (h'.other sl hsl).trans (h.other sl hsl)⟩

theorem Moves.mono {T U : Slot → Prop} (h : Moves s s' T) (hTU : ∀ sl, T sl → U sl) :
    Moves s s' U :=
  ⟨h.blocksOnly, h.freeinode, fun sl hsl => h.other sl fun hT => hsl (hTU sl hT)⟩

theorem Base.nMeta_le (h : Base s) : nMeta ≤ s.freeblock := by
  by_contra hlt
  have := h.blocks.reserved s.freeblock (by omega)
  simp at this

theorem Base.freeblock_ne_zero (h : Base s) : s.freeblock ≠ 0 := by
  have := h.nMeta_le
  have := Fs.nMeta_pos
  omega

/-- Only the inodes below `freeinode` are allocated. -/
theorem Base.lt_freeinode (h : Base s) {i : ℕ} (hi : s.disk.Allocated i) : i < s.freeinode := by
  by_contra hge
  apply hi
  rw [h.fresh i (by omega)]
  rfl

/-- Every block a slot holds lies below `freeblock`. -/
theorem Base.get_lt (h : Base s) {sl : Slot} (hs : s.disk.get sl ≠ 0) :
    s.disk.get sl < s.freeblock := by
  obtain ⟨hlo, hhi⟩ := h.blocks.range sl hs
  have := (h.blocks.used_iff _ hlo hhi).2 ⟨sl, rfl⟩
  simpa [view_get] using this

/-- The kernel's `allocAddr` of an empty address on the view takes `freeblock`: the counter and
the bitmap agree. -/
theorem allocAddr_view (h : Base s) {i j : ℕ} (h0 : (s.disk.inode i).addrs j = 0)
    (hfb : s.freeblock < fsSize) :
    Fs.allocAddr s.view i j = ((s.takeAddr i j).view, s.freeblock) := by
  have hff := firstFree_view hfb
  rcases Fs.allocAddr_cases s.view i j with
    ⟨hne, -⟩ | ⟨-, hnone, -⟩ | ⟨b, -, hb, ⟨rfl, -⟩ | ⟨-, hx⟩⟩
  · exact absurd h0 hne
  · rw [hff] at hnone
    cases hnone
  · rw [hff] at hb
    exact absurd (Option.some.inj hb) h.freeblock_ne_zero
  · rw [hff] at hb
    obtain rfl := Option.some.inj hb
    rw [hx, view_takeAddr (h.blank _ le_rfl)]

theorem allocEntry_view (h : Base s) {ib k : ℕ} (h0 : s.disk.ind ib k = 0)
    (hfb : s.freeblock < fsSize) :
    Fs.allocEntry s.view ib k = ((s.takeEntry ib k).view, s.freeblock) := by
  have hff := firstFree_view hfb
  rcases Fs.allocEntry_cases s.view ib k with
    ⟨hne, -⟩ | ⟨-, hnone, -⟩ | ⟨b, -, hb, ⟨rfl, -⟩ | ⟨-, hx⟩⟩
  · exact absurd h0 hne
  · rw [hff] at hnone
    cases hnone
  · rw [hff] at hb
    exact absurd (Option.some.inj hb) h.freeblock_ne_zero
  · rw [hff] at hb
    obtain rfl := Option.some.inj hb
    rw [hx, view_takeEntry (h.blank _ le_rfl)]

section Take

variable (h : Base s) {i j k : ℕ} (hi : s.disk.Allocated i) (hfb : s.freeblock < fsSize)
include h hi hfb

/-- `freeblock` taken into the empty address `j` of inode `i` fills exactly that slot. -/
theorem Base.get_takeAddr (hj : j ≤ nDirect) (h0 : (s.disk.inode i).addrs j = 0) (sl : Slot) :
    (s.takeAddr i j).disk.get sl = if sl = Slot.addr i j then s.freeblock else s.disk.get sl := by
  rw [← view_get, view_takeAddr (h.blank _ le_rfl)]
  exact Fs.get_take_setAddr h.blocks hi hj h0 (firstFree_view hfb) sl

theorem Base.takeAddr (hj : j ≤ nDirect) (h0 : (s.disk.inode i).addrs j = 0) :
    Base (s.takeAddr i j) ∧ Moves s (s.takeAddr i j) (· = Slot.addr i j) := by
  have hblocks : BlockInv (s.takeAddr i j).view := by
    have := (h.blocks.allocAddr hi hj).1
    rwa [allocAddr_view h h0 hfb] at this
  refine ⟨⟨hblocks, hfb, fun b hb => h.blank b (Nat.le_of_succ_le hb), fun k hk => ?_⟩,
    ⟨.setAddr _ i j _, rfl, fun sl hsl => by rw [h.get_takeAddr hi hfb hj h0, if_neg hsl]⟩⟩
  have hki : k ≠ i := fun hki => (h.lt_freeinode hi).not_ge (hki ▸ hk)
  simp [State.takeAddr, Disk.setAddr, Disk.setInode, Function.update_of_ne hki, h.fresh k hk]

variable (hblk : (s.disk.inode i).addrs nDirect ≠ 0) (hk : k < nIndirect)
  (h0 : s.disk.ind ((s.disk.inode i).addrs nDirect) k = 0)
include hblk hk h0

/-- `freeblock` taken into the empty entry `k` of inode `i`'s indirect block fills exactly that
slot. -/
theorem Base.get_takeEntry (sl : Slot) :
    (s.takeEntry ((s.disk.inode i).addrs nDirect) k).disk.get sl =
      if sl = .entry i k then s.freeblock else s.disk.get sl := by
  rw [← view_get, view_takeEntry (h.blank _ le_rfl)]
  exact Fs.get_take_setInd h.blocks hi hblk hk h0 (firstFree_view hfb) sl

theorem Base.takeEntry :
    Base (s.takeEntry ((s.disk.inode i).addrs nDirect) k) ∧
      Moves s (s.takeEntry ((s.disk.inode i).addrs nDirect) k) (· = .entry i k) := by
  have hblocks : BlockInv (s.takeEntry ((s.disk.inode i).addrs nDirect) k).view := by
    have := (h.blocks.allocEntry hi hblk hk).1
    rwa [view_inode, allocEntry_view h h0 hfb] at this
  -- the indirect block is held, so it lies below `freeblock`
  have hib : (s.disk.inode i).addrs nDirect < s.freeblock := by
    have hget : s.disk.get (.indirect i) = (s.disk.inode i).addrs nDirect := if_pos hi
    rw [← hget]
    exact h.get_lt (hget ▸ hblk)
  refine ⟨⟨hblocks, hfb, fun b hb => ?_, fun k' hk' => h.fresh k' hk'⟩,
    ⟨.setInd _ _ k _, rfl, fun sl hsl => by rw [h.get_takeEntry hi hfb hblk hk h0, if_neg hsl]⟩⟩
  have hb' : s.freeblock + 1 ≤ b := hb
  have hne : b ≠ (s.disk.inode i).addrs nDirect := by omega
  simp [State.takeEntry, Disk.setInd, Function.update_of_ne hne, h.blank b (by omega)]

end Take

/-- The indirect block `blockFor` reads: inode `inum`'s, taken from `freeblock` if it has none. -/
theorem Base.indirect (h : Base s) {inum : ℕ} (hi : s.disk.Allocated inum)
    (hfb : ((indirectFor s inum).disk.inode inum).addrs nDirect < fsSize) :
    Base (indirectFor s inum) ∧ Moves s (indirectFor s inum) (· = .indirect inum) ∧
      ((indirectFor s inum).disk.inode inum).addrs nDirect ≠ 0 := by
  unfold Mkfs.indirectFor at hfb ⊢
  by_cases h0 : (s.disk.inode inum).addrs nDirect = 0
  · rw [if_pos h0] at hfb ⊢
    have haddr : ((s.takeAddr inum nDirect).disk.inode inum).addrs nDirect = s.freeblock := by
      simp [State.takeAddr, Disk.setAddr, Disk.setInode]
    rw [haddr] at hfb ⊢
    obtain ⟨hb, hm⟩ := h.takeAddr hi hfb le_rfl h0
    exact ⟨hb, hm.mono fun sl hsl => hsl.trans (slot_addr_nDirect inum), h.freeblock_ne_zero⟩
  · rw [if_neg h0]
    exact ⟨h, .refl s _, h0⟩

/-- One block for block index `fbn < MAXFILE` of an allocated inode, when it is a block of the
image: `Base` holds after it, the blocks move only into the slot of `fbn` and the indirect
address, and the slot of `fbn` holds the block returned. -/
theorem Base.blockFor_ok (h : Base s) {inum fbn x : ℕ} (hi : s.disk.Allocated inum)
    (hf : fbn < maxFile) (hb : blockFor s inum fbn = .ok (s', x)) (hx : x < fsSize) :
    Base s' ∧ Moves s s' (fun sl => sl = slotOf inum fbn ∨ sl = .indirect inum) ∧
      s'.disk.get (slotOf inum fbn) = x ∧ x ≠ 0 := by
  unfold Mkfs.blockFor at hb
  by_cases hd : fbn < nDirect
  · -- a direct address
    have hslot : slotOf inum fbn = .direct inum fbn := if_pos hd
    rw [if_pos hd] at hb
    by_cases h0 : (s.disk.inode inum).addrs fbn = 0
    · rw [if_pos h0] at hb
      obtain ⟨rfl, rfl⟩ := Prod.mk.inj (Except.ok.inj hb)
      have haddr : Slot.addr inum fbn = slotOf inum fbn := by rw [hslot]; exact if_pos hd
      obtain ⟨hb', hm⟩ := h.takeAddr hi hx hd.le h0
      refine ⟨hb', hm.mono fun sl hsl => .inl (hsl.trans haddr), ?_, h.freeblock_ne_zero⟩
      rw [h.get_takeAddr hi hx hd.le h0, if_pos haddr.symm]
    · rw [if_neg h0] at hb
      obtain ⟨rfl, rfl⟩ := Prod.mk.inj (Except.ok.inj hb)
      refine ⟨h, .refl s _, ?_, h0⟩
      rw [hslot]
      exact if_pos ⟨hi, hd⟩
  · -- an entry of the indirect block, taken after the indirect address
    have hslot : slotOf inum fbn = .entry inum (fbn - nDirect) := if_neg hd
    have hk : fbn - nDirect < nIndirect := by unfold maxFile at hf; omega
    rw [if_neg hd] at hb
    dsimp only at hb
    by_cases hib : fsSize ≤ ((indirectFor s inum).disk.inode inum).addrs nDirect
    · rw [if_pos hib] at hb
      cases hb
    rw [if_neg hib] at hb
    obtain ⟨hb1, hm1, hblk⟩ := h.indirect hi (by omega)
    have hi1 : (indirectFor s inum).disk.Allocated inum := (hm1.blocksOnly.allocated inum).2 hi
    have hm1' := hm1.mono (U := fun sl => sl = slotOf inum fbn ∨ sl = .indirect inum)
      fun sl hsl => .inr hsl
    split_ifs at hb with h0
    · obtain ⟨rfl, rfl⟩ := Prod.mk.inj (Except.ok.inj hb)
      obtain ⟨hb', hm⟩ := hb1.takeEntry hi1 hx hblk hk h0
      refine ⟨hb', hm1'.trans (hm.mono fun sl hsl => .inl (hsl.trans hslot.symm)), ?_,
        hb1.freeblock_ne_zero⟩
      rw [hslot, hb1.get_takeEntry hi1 hx hblk hk h0, if_pos rfl]
    · obtain ⟨rfl, rfl⟩ := Prod.mk.inj (Except.ok.inj hb)
      refine ⟨hb1, hm1', ?_, h0⟩
      rw [hslot]
      exact if_pos ⟨hi1, hblk, hk⟩

end Base

/-- The bytes of one turn of `iappend`'s loop: at least one, at most `n`, and none beyond the
block at `off`. -/
theorem chunk_bounds (n off : ℕ) (hn : n ≠ 0) :
    0 < min n ((off / bsize + 1) * bsize - off) ∧
      off + min n ((off / bsize + 1) * bsize - off) ≤ (off / bsize + 1) * bsize ∧
      min n ((off / bsize + 1) * bsize - off) ≤ n := by
  have hlt : off < (off / bsize + 1) * bsize := by
    rw [Nat.add_one_mul]
    exact Nat.lt_div_mul_add (by decide)
  omega

/-- The loop of `iappend` on an allocated inode that covers `off`: `Base` holds after it, the
blocks move only in the inode's own slots, and the inode covers the offset reached, which is
`off + n` when the fuel is enough. -/
theorem Base.appendLoop {inum : ℕ} : ∀ {fuel : ℕ} {s s' : State} {n off off' : ℕ},
    Base s → s.disk.Allocated inum → n ≤ fuel → Covers s.disk inum off →
    appendLoop inum fuel s n off = .ok (s', off') →
    Base s' ∧ Moves s s' (fun sl => sl.ino = inum) ∧ Covers s'.disk inum off' ∧ off' = off + n
  | 0, s, s', n, off, off', hb, _, hn, hc, h => by
    obtain rfl : n = 0 := by omega
    rw [Mkfs.appendLoop] at h
    cases h
    exact ⟨hb, .refl s _, hc, rfl⟩
  | fuel + 1, s, s', n, off, off', hb, hi, hn, hc, h => by
    rw [Mkfs.appendLoop] at h
    by_cases hn0 : n = 0
    · rw [if_pos hn0] at h
      cases h
      exact ⟨hb, .refl s _, hc, by omega⟩
    rw [if_neg hn0] at h
    by_cases hmax : maxFile ≤ off / bsize
    · rw [if_pos hmax] at h
      cases h
    rw [if_neg hmax] at h
    split at h
    · cases h
    · rename_i s1 x hbf
      by_cases hx : fsSize ≤ x
      · rw [if_pos hx] at h
        cases h
      rw [if_neg hx] at h
      obtain ⟨hb1, hm1, hslot, hx0⟩ := hb.blockFor_ok hi (by omega) hbf (by omega)
      obtain ⟨hpos, hle, hlen⟩ := chunk_bounds n off hn0
      -- the block just taken extends the cover to the end of this turn's bytes
      have hc1 : Covers s1.disk inum (off + min n ((off / bsize + 1) * bsize - off)) :=
        hc.extend hpos hle (by rw [hslot]; exact hx0) fun fbn hne =>
        hm1.other _ fun hT => hT.elim (fun he => hne (slotOf_inj he))
          (fun he => slotOf_ne_indirect _ _ _ he)
      obtain ⟨hb', hm', hc', hoff⟩ :=
        Base.appendLoop hb1 ((hm1.blocksOnly.allocated inum).2 hi) (by omega) hc1 h
      refine ⟨hb', (hm1.mono ?_).trans hm', hc', by omega⟩
      rintro sl (rfl | rfl)
      · exact slotOf_ino _ _
      · rfl

/-- `iappend` of `n` bytes to inode `inum`: its size grows by `n`; the other sizes, the types,
the other directories and `freeinode` stay. -/
structure Grows (s s' : State) (inum n : ℕ) : Prop where
  size : (s'.disk.inode inum).size = (s.disk.inode inum).size + n
  sizeOther : ∀ k ≠ inum, (s'.disk.inode k).size = (s.disk.inode k).size
  type : ∀ k, (s'.disk.inode k).type = (s.disk.inode k).type
  dirOther : ∀ k ≠ inum, s'.disk.dir k = s.disk.dir k
  freeinode : s'.freeinode = s.freeinode

theorem Grows.refl (s : State) (inum : ℕ) : Grows s s inum 0 :=
  ⟨rfl, fun _ _ => rfl, fun _ => rfl, fun _ _ => rfl, rfl⟩

theorem Grows.trans {s s' s'' : State} {inum a b : ℕ} (h : Grows s s' inum a)
    (h' : Grows s' s'' inum b) : Grows s s'' inum (a + b) :=
  ⟨by rw [h'.size, h.size, Nat.add_assoc], fun k hk => (h'.sizeOther k hk).trans (h.sizeOther k hk),
    fun k => (h'.type k).trans (h.type k), fun k hk => (h'.dirOther k hk).trans (h.dirOther k hk),
    h'.freeinode.trans h.freeinode⟩

theorem Grows.allocated {s s' : State} {inum n : ℕ} (h : Grows s s' inum n) (k : ℕ) :
    s'.disk.Allocated k ↔ s.disk.Allocated k := by
  unfold Disk.Allocated
  rw [h.type]

/-- The image invariant: `Base`, and every inode holds a block for every block index below its
size and none from its size on. -/
structure Image (s : State) : Prop extends Base s where
  covers : ∀ i, Covers s.disk i (s.disk.inode i).size

section Image

variable {s s' : State}

/-- The zeroed image, before `ialloc` of the root. -/
theorem image_zero : Image ⟨zeroDisk, 1, nMeta⟩ := by
  have hget : ∀ sl, zeroDisk.get sl = 0 := fun sl =>
    Disk.get_eq_zero (.inr rfl)
  refine ⟨⟨⟨fun b hb => by simpa using hb, fun b h1 h2 => ?_, fun sl hs => absurd (hget sl) hs,
    fun sl _ _ hs => absurd (hget sl) hs⟩, by decide, fun _ _ => rfl, fun _ _ => rfl⟩,
    fun i => covers_zero fun fbn => hget _⟩
  simp only [view_used, decide_eq_true_eq]
  exact ⟨fun h => absurd h (by omega), fun ⟨sl, hsl⟩ => absurd hsl (by
    rw [view_get, hget]
    have := Fs.nMeta_pos
    omega)⟩

@[simp] theorem ialloc_snd (s : State) (type : IType) : (ialloc s type).2 = s.freeinode := rfl
@[simp] theorem ialloc_freeinode (s : State) (type : IType) :
    (ialloc s type).1.freeinode = s.freeinode + 1 := rfl
@[simp] theorem ialloc_freeblock (s : State) (type : IType) :
    (ialloc s type).1.freeblock = s.freeblock := rfl
@[simp] theorem ialloc_inode (s : State) (type : IType) :
    (ialloc s type).1.disk.inode =
      Function.update s.disk.inode s.freeinode ⟨type, 0, 1, 0, fun _ => 0⟩ := rfl
@[simp] theorem ialloc_dir (s : State) (type : IType) : (ialloc s type).1.disk.dir = s.disk.dir :=
  rfl

/-- `ialloc` writes a fresh inode with no blocks and size 0. -/
theorem Image.ialloc (h : Image s) (type : IType) : Image (ialloc s type).1 := by
  have hnew : ∀ sl : Slot, sl.ino = s.freeinode → (Mkfs.ialloc s type).1.disk.get sl = 0 :=
    fun sl hsl => Disk.get_eq_zero (.inr (by simp [hsl]))
  have hold : ∀ sl : Slot, sl.ino ≠ s.freeinode →
      (Mkfs.ialloc s type).1.disk.get sl = s.disk.get sl :=
    fun sl hsl => Disk.get_congr_ino (by simp [Function.update_of_ne hsl]) rfl
  refine ⟨⟨h.blocks.setInode_empty rfl (.inr (by simp [h.fresh _ le_rfl, zeroInode])), h.cap,
    h.blank, fun k hk => ?_⟩, fun k => ?_⟩
  · have hk' : k ≠ s.freeinode := by simp at hk; omega
    simp [Function.update_of_ne hk', h.fresh k (by simp at hk; omega)]
  · by_cases hk : k = s.freeinode
    · subst hk
      simpa using covers_zero fun fbn => hnew _ (slotOf_ino _ _)
    · simpa [Function.update_of_ne hk] using
        (h.covers k).congr fun fbn => hold _ (by simpa using hk)

/-- Writing a directory entry moves no block. -/
theorem Image.setDir (h : Image s) (i k : ℕ) (e : Dirent) :
    Image { s with disk := s.disk.setDir i k e } :=
  ⟨⟨h.blocks.setDir i k e, h.cap, h.blank, h.fresh⟩, h.covers⟩

/-- `iappend` on an allocated inode keeps the invariant and grows the inode by `n`. -/
theorem Image.iappend (h : Image s) {inum n : ℕ} (hi : s.disk.Allocated inum)
    (ha : iappend s inum n = .ok s') : Image s' ∧ Grows s s' inum n ∧ s'.disk.dir = s.disk.dir := by
  unfold Mkfs.iappend at ha
  split at ha
  · cases ha
  · rename_i s1 off hloop
    cases ha
    obtain ⟨hb1, hm, hc, hoff⟩ := h.toBase.appendLoop hi le_rfl (h.covers inum) hloop
    have hinum : inum < s.freeinode := h.lt_freeinode hi
    -- writing the size back moves no block
    have hget : ∀ sl, (s1.disk.setInode inum { s1.disk.inode inum with size := off }).get sl =
        s1.disk.get sl := Fs.get_setInode_same _ rfl rfl
    have hmget : ∀ k, k ≠ inum → ∀ fbn, s1.disk.get (slotOf k fbn) = s.disk.get (slotOf k fbn) :=
      fun k hk fbn => hm.other _ (by simpa using hk)
    refine ⟨⟨⟨hb1.blocks.congr hget rfl, hb1.cap, hb1.blank, fun k hk => ?_⟩, fun k => ?_⟩,
      ⟨?_, fun k hk => ?_, fun k => ?_, fun k _ => congrFun hm.blocksOnly.dir k, hm.freeinode⟩,
      hm.blocksOnly.dir⟩
    · have hk' : k ≠ inum := by simp only [hm.freeinode] at hk; omega
      simp [Disk.setInode, Function.update_of_ne hk', hb1.fresh k hk]
    · by_cases hk : k = inum
      · subst hk
        simpa [Disk.setInode] using hc.congr fun fbn => hget _
      · have := (h.covers k).congr fun fbn => (hget _).trans (hmget k hk fbn)
        simpa [Disk.setInode, Function.update_of_ne hk, hm.blocksOnly.size k] using this
    · simp [Disk.setInode, hoff]
    · simp [Disk.setInode, Function.update_of_ne hk, hm.blocksOnly.size k]
    · by_cases hk : k = inum
      · subst hk
        simp [Disk.setInode, hm.blocksOnly.type]
      · simp [Disk.setInode, Function.update_of_ne hk, hm.blocksOnly.type k]

/-- `iappend` of an entry to an allocated directory: it lands at index `size / sizeof(de)`. -/
theorem Image.appendDirent (h : Image s) {dp : ℕ} {de : Dirent} (hdp : s.disk.Allocated dp)
    (ha : appendDirent s dp de = .ok s') :
    Image s' ∧ Grows s s' dp direntSize ∧
      s'.disk.dir dp = Function.update (s.disk.dir dp) ((s.disk.inode dp).size / direntSize) de := by
  unfold Mkfs.appendDirent at ha
  split at ha
  · cases ha
  · rename_i s1 hs1
    cases ha
    obtain ⟨h1, hg, hdir⟩ := h.iappend hdp hs1
    refine ⟨h1.setDir _ _ _, ⟨hg.size, hg.sizeOther, hg.type, fun k hk => ?_, hg.freeinode⟩, ?_⟩
    · simp [Disk.setDir, Function.update_of_ne hk, hdir]
    · simp [Disk.setDir, hdir]

/-- `main`'s read loop on a file of `len` bytes: with fuel for every chunk, the inode grows by
`len`. -/
theorem Image.appendFile {inum : ℕ} : ∀ {fuel : ℕ} {s s' : State} {len : ℕ}, Image s →
    s.disk.Allocated inum → len ≤ fuel → appendFile inum fuel s len = .ok s' →
    Image s' ∧ Grows s s' inum len
  | 0, s, s', len, h, _, hlen, ha => by
    obtain rfl : len = 0 := by omega
    rw [Mkfs.appendFile] at ha
    cases ha
    exact ⟨h, .refl s inum⟩
  | fuel + 1, s, s', len, h, hi, hlen, ha => by
    rw [Mkfs.appendFile] at ha
    by_cases hl : len = 0
    · rw [if_pos hl] at ha
      cases ha
      subst hl
      exact ⟨h, .refl s inum⟩
    rw [if_neg hl] at ha
    split at ha
    · cases ha
    · rename_i s1 hs1
      obtain ⟨h1, hg1, -⟩ := h.iappend hi hs1
      have : 0 < bsize := by decide
      obtain ⟨h', hg'⟩ := Image.appendFile h1 ((hg1.allocated inum).2 hi) (by omega) ha
      have hg := hg1.trans hg'
      rw [Nat.add_sub_cancel' (Nat.min_le_left _ _)] at hg
      exact ⟨h', hg⟩

end Image

/-! ### The root directory and the files -/

/-- The root directory `main` writes for `files`: `.` and `..`, then one entry per file, file
`k` in inode `k + 2`. -/
def rootEntries (files : List (List Char × ℕ)) : List Dirent :=
  ⟨rootIno, ['.']⟩ :: ⟨rootIno, ['.', '.']⟩ ::
    files.mapIdx fun k f => ⟨k + 2, (dirName f.1).take dirsiz⟩

@[simp] theorem length_rootEntries (files : List (List Char × ℕ)) :
    (rootEntries files).length = files.length + 2 := by
  simp [rootEntries]

theorem rootEntries_concat (files : List (List Char × ℕ)) (f : List Char × ℕ) :
    rootEntries (files ++ [f]) =
      rootEntries files ++ [⟨files.length + 2, (dirName f.1).take dirsiz⟩] := by
  simp [rootEntries]

theorem getD_concat_eq_update {α : Type} (l : List α) (a d : α) (k : ℕ) :
    (l ++ [a]).getD k d = Function.update (fun k => l.getD k d) l.length a k := by
  by_cases hk : k = l.length
  · subst hk
    simp
  · rw [Function.update_of_ne hk]
    simp only [List.getD_eq_getElem?_getD, List.getElem?_append]
    split
    · rfl
    · rename_i hlt
      have : k - l.length ≠ 0 := by omega
      simp [List.getElem?_eq_none (by omega : l.length ≤ k), this]

/-- The root directory holds exactly the entries `es`, each at its index, and is as long as
they are. -/
structure RootHolds (s : State) (es : List Dirent) : Prop where
  type : (s.disk.inode rootIno).type = .dir
  size : (s.disk.inode rootIno).size = direntSize * es.length
  dir : ∀ k, s.disk.dir rootIno k = es.getD k ⟨0, []⟩

section Root

variable {s s' : State} {es : List Dirent}

theorem RootHolds.allocated (hr : RootHolds s es) : s.disk.Allocated rootIno := by
  unfold Disk.Allocated
  rw [hr.type]
  simp

/-- Appending an entry to the root directory puts it after the others. -/
theorem RootHolds.appendDirent (h : Image s) (hr : RootHolds s es) {de : Dirent}
    (ha : appendDirent s rootIno de = .ok s') :
    Image s' ∧ Grows s s' rootIno direntSize ∧ RootHolds s' (es ++ [de]) := by
  obtain ⟨h', hg, hdir⟩ := h.appendDirent hr.allocated ha
  refine ⟨h', hg, ⟨by rw [hg.type, hr.type], ?_, fun k => ?_⟩⟩
  · rw [hg.size, hr.size, List.length_append, List.length_singleton, Nat.mul_add_one]
  · have hidx : (s.disk.inode rootIno).size / direntSize = es.length := by
      rw [hr.size]
      exact Nat.mul_div_cancel_left _ (by decide)
    rw [hdir, hidx, getD_concat_eq_update]
    congr 1
    funext k
    exact hr.dir k

/-- A step on another inode's blocks leaves the root directory as it was. -/
theorem RootHolds.grows {inum n : ℕ} (hr : RootHolds s es) (hg : Grows s s' inum n)
    (hne : inum ≠ rootIno) : RootHolds s' es :=
  ⟨by rw [hg.type, hr.type], by rw [hg.sizeOther _ hne.symm, hr.size],
    fun k => by rw [hg.dirOther _ hne.symm, hr.dir]⟩

end Root

/-- After the files `files`: the image invariant, the root directory holding their entries,
inode `k + 2` holding file `k` with its length, and the next inode the next file's. -/
structure Added (s : State) (files : List (List Char × ℕ)) : Prop where
  image : Image s
  root : RootHolds s (rootEntries files)
  file : ∀ k (hk : k < files.length),
    (s.disk.inode (k + 2)).type = .file ∧ (s.disk.inode (k + 2)).size = files[k].2
  freeinode : s.freeinode = files.length + 2

section Added

variable {s s' : State} {files : List (List Char × ℕ)}

/-- One more input file: its inode is `freeinode`, its entry goes after the others, and its
contents after nothing. -/
theorem Added.addFile (h : Added s files) {path : List Char} {len : ℕ}
    (ha : addFile s path len = .ok s') : Added s' (files ++ [(path, len)]) := by
  unfold Mkfs.addFile at ha
  split_ifs at ha with hslash
  dsimp only at ha
  simp only [ialloc_snd] at ha
  split at ha
  · cases ha
  rename_i s2 hs2
  -- the new inode
  have hinum : s.freeinode ≠ rootIno := by rw [h.freeinode]; simp [rootIno]
  have h1 := h.image.ialloc .file
  have hr1 : RootHolds (ialloc s .file).1 (rootEntries files) :=
    ⟨by simp [Function.update_of_ne hinum.symm, h.root.type],
      by simp [Function.update_of_ne hinum.symm, h.root.size], fun k => by simp [h.root.dir]⟩
  obtain ⟨h2, hg2, hr2⟩ := hr1.appendDirent h1 hs2
  have hfile2 : (s2.disk.inode s.freeinode).type = .file := by
    rw [hg2.type]
    simp
  obtain ⟨h', hg'⟩ := h2.appendFile (by simp [Disk.Allocated, hfile2]) le_rfl ha
  -- the earlier files' inodes are neither the root nor the new one
  have hold : ∀ k, k < files.length → k + 2 ≠ s.freeinode := fun k hk => by
    rw [h.freeinode]
    omega
  refine ⟨h', ?_, fun k hk => ?_, ?_⟩
  · rw [rootEntries_concat, ← h.freeinode]
    exact hr2.grows hg' hinum
  · simp only [List.length_append, List.length_singleton] at hk
    rcases Nat.lt_succ_iff_lt_or_eq.1 hk with hk | rfl
    · have hne := hold k hk
      have hsize : (s'.disk.inode (k + 2)).size = (s.disk.inode (k + 2)).size := by
        rw [hg'.sizeOther _ hne, hg2.sizeOther _ (by simp [rootIno]), ialloc_inode,
          Function.update_of_ne hne]
      refine ⟨?_, ?_⟩
      · rw [hg'.type, hg2.type, ialloc_inode, Function.update_of_ne hne, (h.file k hk).1]
      · rw [hsize, (h.file k hk).2, List.getElem_append_left hk]
    · rw [← h.freeinode]
      refine ⟨by rw [hg'.type, hfile2], ?_⟩
      rw [hg'.size, hg2.sizeOther _ hinum, ialloc_inode, Function.update_self]
      simp
  · rw [hg'.freeinode, hg2.freeinode, ialloc_freeinode, h.freeinode]
    simp

/-- The input files in order. -/
theorem Added.addFiles : ∀ {s s' : State} {files rest : List (List Char × ℕ)}, Added s files →
    addFiles s rest = .ok s' → Added s' (files ++ rest)
  | s, s', files, [], h, ha => by
    rw [Mkfs.addFiles] at ha
    cases ha
    simpa using h
  | s, s', files, (path, len) :: rest, h, ha => by
    rw [Mkfs.addFiles] at ha
    split at ha
    · cases ha
    · rename_i s1 hs1
      simpa using Added.addFiles (h.addFile hs1) ha

end Added

/-! ### The image `mkfs` writes -/

section Mkfs

variable {files : List (List Char × ℕ)} {s : State}

@[simp] theorem fixRoot_freeblock (s : State) : (fixRoot s).freeblock = s.freeblock := rfl
@[simp] theorem fixRoot_dir (s : State) : (fixRoot s).disk.dir = s.disk.dir := rfl

/-- Fixing the root's size moves no block. -/
theorem fixRoot_get (s : State) (sl : Slot) : (fixRoot s).disk.get sl = s.disk.get sl := by
  unfold fixRoot
  exact Fs.get_setInode_same _ (by rfl) (by rfl) sl

/-- A run of `main` that ends without an error added every file after `.` and `..`, then fixed
the root's size and wrote the bitmap. -/
theorem mkfs_ok (h : mkfs files = .ok s) :
    ∃ s1, Added s1 files ∧ s1.freeblock < bsize * 8 ∧
      s = { fixRoot s1 with disk := (fixRoot s1).view } := by
  unfold Mkfs.mkfs at h
  dsimp only at h
  split_ifs at h with hroot
  simp only [ialloc_snd] at h
  split at h
  · cases h
  rename_i s2 hs2
  split at h
  · cases h
  rename_i s3 hs3
  split at h
  · cases h
  rename_i s4 hs4
  -- the root directory, then `.` and `..`
  have h1 := image_zero.ialloc .dir
  have hr1 : RootHolds (ialloc ⟨zeroDisk, 1, nMeta⟩ .dir).1 [] :=
    ⟨by simp [rootIno], by simp [rootIno], fun k => by simp [zeroDisk]⟩
  obtain ⟨h2, hg2, hr2⟩ := hr1.appendDirent h1 hs2
  obtain ⟨h3, hg3, hr3⟩ := hr2.appendDirent h2 hs3
  have hadd : Added s3 [] :=
    ⟨h3, hr3, fun k hk => absurd hk (Nat.not_lt_zero k), by rw [hg3.freeinode, hg2.freeinode]; rfl⟩
  unfold Mkfs.balloc at h
  split_ifs at h with hb
  cases h
  exact ⟨s4, by simpa using hadd.addFiles hs4, by simpa using hb, rfl⟩

/-- When the entries fill whole blocks, the rounding of the root directory's size goes one block
too far: the root's size then reaches past the block index `16 * (files + 2) / BSIZE`, and it
holds no block there, so `readi` there makes `bmap` allocate. -/
theorem mkfs_root_hole (h : mkfs files = .ok s)
    (hfull : direntSize * (files.length + 2) % bsize = 0) :
    (s.disk.inode rootIno).size = (direntSize * (files.length + 2) / bsize + 1) * bsize ∧
      s.disk.get (slotOf rootIno (direntSize * (files.length + 2) / bsize)) = 0 := by
  obtain ⟨s1, ha, -, rfl⟩ := mkfs_ok h
  have hsize : (s1.disk.inode rootIno).size = direntSize * (files.length + 2) := by
    rw [ha.root.size, length_rootEntries]
  refine ⟨by simp [fixRoot, Disk.setInode, hsize], ?_⟩
  rw [view_get, fixRoot_get]
  by_cases hk : direntSize * (files.length + 2) / bsize < maxFile
  · -- the block index of the size itself is not below the size
    have hcov := ha.image.covers rootIno _ hk
    rw [hsize, Nat.div_mul_cancel (Nat.dvd_of_mod_eq_zero hfull)] at hcov
    simpa using hcov
  · exact get_slotOf_of_le (by omega)

/-- Sixty-two empty files: with `.` and `..` the entries fill the root's first block, so its size
becomes two blocks while it holds no second block. -/
theorem mkfs_root_hole_sixty_two :
    ∃ s, mkfs (List.replicate 62 (['a'], 0)) = .ok s ∧
      (s.disk.inode rootIno).size = 2 * bsize ∧ s.disk.get (slotOf rootIno 1) = 0 := by
  have hok : (mkfs (List.replicate 62 (['a'], 0))).toBool = true := by decide +kernel
  obtain ⟨s, hs⟩ : ∃ s, mkfs (List.replicate 62 (['a'], 0)) = .ok s := by
    revert hok
    cases mkfs (List.replicate 62 (['a'], 0)) with
    | error e => intro h; cases h
    | ok s => intro _; exact ⟨s, rfl⟩
  have hk : direntSize * ((List.replicate 62 (['a'], 0)).length + 2) / bsize = 1 := by
    simp [direntSize, dirsiz, bsize]
  obtain ⟨hsize, hget⟩ := mkfs_root_hole hs (by simp [direntSize, dirsiz, bsize])
  rw [hk] at hsize hget
  exact ⟨s, hs, hsize, hget⟩

end Mkfs

end Xv6.Mkfs
