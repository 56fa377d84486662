import Xv6.Param
import Mathlib.Data.List.Range
import Mathlib.Logic.Function.Basic

/-!
# The file system on disk (`kernel/fs.c`): inodes and their blocks

The disk as `fs.c` reads it: the free bitmap, the inodes, the blocks read as arrays of block
numbers (indirect blocks) and the entries of every directory.  `balloc` takes the first block
whose bit is clear and zeroes it, `bfree` clears a bit and panics on a clear one, `bmap` finds
or allocates the block behind an offset of an inode, `itrunc` frees all of an inode's blocks and
`writei` writes a range through `bmap`.

A block number is held by a `Slot`: a direct address of an inode, its indirect address, or an
entry of its indirect block; `Disk.get` reads a slot of an allocated inode (`0`: no block).

* `BlockInv`: the bitmap marks the metadata blocks and, among the data blocks, exactly those some
  slot holds, and no two slots hold the same block;
* `BlockInv.bmap`, `BlockInv.writei`, `BlockInv.itrunc`: each operation keeps it, and under it
  `itrunc` never reaches `bfree`'s panic.

Directory contents are kept per inode (`Disk.dir`) rather than inside its data blocks: what an
entry says, not which block holds it; as in the source, only the entries below the inode's size
are read.  A `short` field is an integer kept in range by `short`.
-/

namespace Xv6.Fs

/-- The `type` of an inode: `0` (free), `T_DIR`, `T_FILE` or `T_DEVICE`. -/
inductive IType
  | free
  | dir
  | file
  | device
  deriving DecidableEq, Repr

/-- The value of `x` stored into a 16-bit `short`. -/
def short (x : ℤ) : ℤ := (x + 2 ^ 15) % 2 ^ 16 - 2 ^ 15

/-- A `struct dinode`, less `minor`, which nothing here reads. -/
structure Dinode where
  type : IType
  major : ℤ
  nlink : ℤ
  size : ℕ
  /-- `addrs[0..NDIRECT)` are the direct blocks, `addrs[NDIRECT]` the indirect block. -/
  addrs : ℕ → ℕ

/-- A `struct dirent`; an entry with `inum = 0` is free.  A name is at most `DIRSIZ` bytes. -/
structure Dirent where
  inum : ℕ
  name : List Char
  deriving DecidableEq, Repr

/-- The disk as the file system reads it. -/
structure Disk where
  /-- The free bitmap: bit `b` is set when block `b` is in use. -/
  used : ℕ → Bool
  /-- The inode blocks. -/
  inode : ℕ → Dinode
  /-- Block `b` read as `uint` block numbers, as `bmap` and `itrunc` read an indirect block. -/
  ind : ℕ → ℕ → ℕ
  /-- Inode `i` read as a directory: entry `k` at offset `k * sizeof(dirent)`.  Only the
  entries below the inode's size are ever read. -/
  dir : ℕ → ℕ → Dirent

namespace Disk

/-- Inode `i` written back (`iupdate`). -/
def setInode (d : Disk) (i : ℕ) (ip : Dinode) : Disk :=
  { d with inode := Function.update d.inode i ip }

/-- Address `j` of inode `i` set to `b`. -/
def setAddr (d : Disk) (i j b : ℕ) : Disk :=
  d.setInode i { d.inode i with addrs := Function.update (d.inode i).addrs j b }

/-- Entry `k` of block `blk` set to `b`. -/
def setInd (d : Disk) (blk k b : ℕ) : Disk :=
  { d with ind := Function.update d.ind blk (Function.update (d.ind blk) k b) }

/-- Entry `k` of directory `i` set to `e`. -/
def setDir (d : Disk) (i k : ℕ) (e : Dirent) : Disk :=
  { d with dir := Function.update d.dir i (Function.update (d.dir i) k e) }

@[simp] theorem setInode_inode (d : Disk) (i : ℕ) (ip : Dinode) :
    (d.setInode i ip).inode = Function.update d.inode i ip := rfl
@[simp] theorem setInode_used (d : Disk) (i : ℕ) (ip : Dinode) :
    (d.setInode i ip).used = d.used := rfl
@[simp] theorem setInode_ind (d : Disk) (i : ℕ) (ip : Dinode) :
    (d.setInode i ip).ind = d.ind := rfl
@[simp] theorem setInode_dir (d : Disk) (i : ℕ) (ip : Dinode) :
    (d.setInode i ip).dir = d.dir := rfl
@[simp] theorem setInd_inode (d : Disk) (blk k b : ℕ) : (d.setInd blk k b).inode = d.inode := rfl
@[simp] theorem setInd_used (d : Disk) (blk k b : ℕ) : (d.setInd blk k b).used = d.used := rfl
@[simp] theorem setInd_ind (d : Disk) (blk k b : ℕ) :
    (d.setInd blk k b).ind = Function.update d.ind blk (Function.update (d.ind blk) k b) := rfl
@[simp] theorem setDir_inode (d : Disk) (i k : ℕ) (e : Dirent) :
    (d.setDir i k e).inode = d.inode := rfl
@[simp] theorem setDir_used (d : Disk) (i k : ℕ) (e : Dirent) :
    (d.setDir i k e).used = d.used := rfl
@[simp] theorem setDir_ind (d : Disk) (i k : ℕ) (e : Dirent) :
    (d.setDir i k e).ind = d.ind := rfl
@[simp] theorem setDir_dir (d : Disk) (i k : ℕ) (e : Dirent) :
    (d.setDir i k e).dir = Function.update d.dir i (Function.update (d.dir i) k e) := rfl

end Disk

/-! ### The block allocator -/

/-- The block `balloc` takes: the first whose bit is clear. -/
def Disk.firstFree (d : Disk) : Option ℕ :=
  (List.range fsSize).find? fun b => !d.used b

/-- Block `b` marked in use and zeroed (`bzero`). -/
def Disk.take (d : Disk) (b : ℕ) : Disk :=
  { d with used := Function.update d.used b true, ind := Function.update d.ind b fun _ => 0 }

/-- `balloc`: take the first free block; `0` when every block is in use ("balloc: out of
blocks"). -/
def balloc (d : Disk) : Disk × ℕ :=
  match d.firstFree with
  | some b => (d.take b, b)
  | none => (d, 0)

/-- `bfree`. -/
def bfree (d : Disk) (b : ℕ) : Except String Disk :=
  if d.used b then .ok { d with used := Function.update d.used b false }
  else .error "freeing free block"

/-- Address `j` of inode `i`, allocated if it is `0`; `0` if the disk is full. -/
def allocAddr (d : Disk) (i j : ℕ) : Disk × ℕ :=
  if (d.inode i).addrs j = 0 then
    match balloc d with
    | (d, 0) => (d, 0)
    | (d, addr) => (d.setAddr i j addr, addr)
  else (d, (d.inode i).addrs j)

/-- Entry `k` of the indirect block `blk`, allocated if it is `0`. -/
def allocEntry (d : Disk) (blk k : ℕ) : Disk × ℕ :=
  if d.ind blk k = 0 then
    match balloc d with
    | (d, 0) => (d, 0)
    | (d, addr) => (d.setInd blk k addr, addr)
  else (d, d.ind blk k)

/-- `bmap(ip, bn)`: the disk block holding block `bn` of inode `i`, allocated if there is none;
`0` if the disk is full. -/
def bmap (d : Disk) (i bn : ℕ) : Except String (Disk × ℕ) :=
  if bn < nDirect then .ok (allocAddr d i bn)
  else if bn - nDirect < nIndirect then
    -- Load the indirect block, allocating if necessary.
    match allocAddr d i nDirect with
    | (d, 0) => .ok (d, 0)
    | (d, blk) => .ok (allocEntry d blk (bn - nDirect))
  else .error "bmap: out of range"

/-- `bfree` every non-zero block of `bs`, in order. -/
def bfreeAll (d : Disk) : List ℕ → Except String Disk
  | [] => .ok d
  | b :: bs =>
    if b = 0 then bfreeAll d bs
    else match bfree d b with
      | .ok d => bfreeAll d bs
      | .error e => .error e

/-- `itrunc`: free the direct blocks, the indirect block's entries and the indirect block, and
empty the inode. -/
def itrunc (d : Disk) (i : ℕ) : Except String Disk :=
  let ip := d.inode i
  match bfreeAll d ((List.range nDirect).map ip.addrs) with
  | .error e => .error e
  | .ok d =>
    let freed : Except String Disk :=
      if ip.addrs nDirect = 0 then .ok d
      else match bfreeAll d ((List.range nIndirect).map (d.ind (ip.addrs nDirect))) with
        | .error e => .error e
        | .ok d => bfree d (ip.addrs nDirect)
    match freed with
    | .error e => .error e
    | .ok d => .ok (d.setInode i { d.inode i with size := 0, addrs := fun _ => 0 })

/-- The loop of `writei` on inode `i`: `tot` of the `n` bytes written and the offset at `off`.
`ok tot` says whether `either_copyin` of the chunk from `tot` succeeds.  Each turn writes at
least one byte, so `n` turns of fuel are enough. -/
def writeLoop (i n : ℕ) (ok : ℕ → Bool) : ℕ → Disk → ℕ → ℕ → Except String (Disk × ℕ × ℕ)
  | 0, d, tot, off => .ok (d, tot, off)
  | fuel + 1, d, tot, off =>
    if tot < n then
      match bmap d i (off / bsize) with
      | .error e => .error e
      | .ok (d, 0) => .ok (d, tot, off)
      | .ok (d, _) =>
        if ok tot then
          let m := min (n - tot) (bsize - off % bsize)
          writeLoop i n ok fuel d (tot + m) (off + m)
        else .ok (d, tot, off)
    else .ok (d, tot, off)

/-- `writei(ip, src, off, n)`: the new disk and the bytes written, `-1` when the range is
refused.  The size grows to the offset reached and the inode is written back either way. -/
def writei (d : Disk) (i off n : ℕ) (ok : ℕ → Bool) : Except String (Disk × ℤ) :=
  if (d.inode i).size < off then .ok (d, -1)
  else if maxFile * bsize < off + n then .ok (d, -1)
  else match writeLoop i n ok n d 0 off with
    | .error e => .error e
    | .ok (d, tot, off) =>
      .ok (d.setInode i { d.inode i with size := max (d.inode i).size off }, tot)

/-! ### Who holds which block -/

/-- A place that holds a block number. -/
inductive Slot
  /-- `addrs[j]` of inode `i`, for `j < NDIRECT`. -/
  | direct (i j : ℕ)
  /-- `addrs[NDIRECT]` of inode `i`. -/
  | indirect (i : ℕ)
  /-- Entry `k` of the indirect block of inode `i`. -/
  | entry (i k : ℕ)
  deriving DecidableEq

/-- The inode a slot belongs to. -/
def Slot.ino : Slot → ℕ
  | .direct i _ | .indirect i | .entry i _ => i

/-- Inode `i` is allocated: its type is not `0`. -/
def Disk.Allocated (d : Disk) (i : ℕ) : Prop := (d.inode i).type ≠ .free

instance (d : Disk) (i : ℕ) : Decidable (d.Allocated i) :=
  inferInstanceAs (Decidable (_ ≠ _))

/-- The block a slot holds: a direct address, the indirect address, or an entry of a non-zero
indirect block, of an allocated inode; `0` for none. -/
def Disk.get (d : Disk) : Slot → ℕ
  | .direct i j => if d.Allocated i ∧ j < nDirect then (d.inode i).addrs j else 0
  | .indirect i => if d.Allocated i then (d.inode i).addrs nDirect else 0
  | .entry i k =>
    if d.Allocated i ∧ (d.inode i).addrs nDirect ≠ 0 ∧ k < nIndirect then
      d.ind ((d.inode i).addrs nDirect) k
    else 0

/-- The free bitmap is exact: it marks the metadata blocks and, among the data blocks, those a
slot holds; every held block is a data block, and no two slots hold the same one. -/
structure BlockInv (d : Disk) : Prop where
  reserved : ∀ b < nMeta, d.used b = true
  used_iff : ∀ b, nMeta ≤ b → b < fsSize → (d.used b = true ↔ ∃ s, d.get s = b)
  range : ∀ s, d.get s ≠ 0 → nMeta ≤ d.get s ∧ d.get s < fsSize
  unique : ∀ s t, d.get s = d.get t → d.get s ≠ 0 → s = t

section BlockInv

variable {d d' : Disk}

theorem nMeta_pos : 0 < nMeta := by decide

/-- Steps that move no block keep the invariant. -/
theorem BlockInv.congr (hd : BlockInv d) (hget : ∀ s, d'.get s = d.get s)
    (hused : d'.used = d.used) : BlockInv d' where
  reserved b hb := hused ▸ hd.reserved b hb
  used_iff b h1 h2 := by simp only [hused, hget]; exact hd.used_iff b h1 h2
  range s := by simp only [hget]; exact hd.range s
  unique s t := by simp only [hget]; exact hd.unique s t

/-- Putting a free data block into an empty slot, and marking it in use, keeps the invariant. -/
theorem BlockInv.attach (hd : BlockInv d) {b : ℕ} {s0 : Slot} (hb : nMeta ≤ b ∧ b < fsSize)
    (hfresh : ∀ s, d.get s ≠ b) (h0 : d.get s0 = 0)
    (hused : d'.used = Function.update d.used b true)
    (hget : ∀ s, d'.get s = if s = s0 then b else d.get s) : BlockInv d' := by
  have hb0 : b ≠ 0 := by have := nMeta_pos; omega
  refine ⟨fun x hx => ?_, fun x h1 h2 => ?_, fun s hs => ?_, fun s t hst hs => ?_⟩
  · rw [hused, Function.update_of_ne (by omega)]
    exact hd.reserved x hx
  · rw [hused]
    by_cases hxb : x = b
    · subst hxb
      exact ⟨fun _ => ⟨s0, by simp [hget]⟩, fun _ => Function.update_self ..⟩
    · rw [Function.update_of_ne hxb, hd.used_iff x h1 h2]
      -- the new slot holds `b`, and the old one held nothing
      constructor
      · rintro ⟨s, hs⟩
        refine ⟨s, ?_⟩
        rw [hget, if_neg]
        · exact hs
        · rintro rfl
          have := nMeta_pos
          omega
      · rintro ⟨s, hs⟩
        rw [hget] at hs
        split_ifs at hs
        · exact absurd hs.symm hxb
        · exact ⟨s, hs⟩
  · rw [hget] at hs ⊢
    split_ifs with h
    · exact hb
    · rw [if_neg h] at hs
      exact hd.range s hs
  · rw [hget, hget] at hst
    rw [hget] at hs
    by_cases hs0 : s = s0 <;> by_cases ht0 : t = s0
    · rw [hs0, ht0]
    · rw [if_pos hs0, if_neg ht0] at hst
      exact absurd hst.symm (hfresh t)
    · rw [if_neg hs0, if_pos ht0] at hst
      exact absurd hst (hfresh s)
    · rw [if_neg hs0, if_neg ht0] at hst
      rw [if_neg hs0] at hs
      exact hd.unique s t hst hs

/-- Inode `i` holds block `x` in one of its slots. -/
def Disk.Holds (d : Disk) (i x : ℕ) : Prop := ∃ s, s.ino = i ∧ d.get s = x

/-- Emptying every slot of inode `i`, and clearing the bits of the blocks it held, keeps the
invariant. -/
theorem BlockInv.detach (hd : BlockInv d) {i : ℕ}
    (hused : ∀ x, d'.used x = true ↔ d.used x = true ∧ (x = 0 ∨ ¬ d.Holds i x))
    (hget : ∀ s, d'.get s = if s.ino = i then 0 else d.get s) : BlockInv d' := by
  -- a slot outside `i` keeps its block, and no slot of `i` holds a block any more
  have hout : ∀ s, d'.get s ≠ 0 → s.ino ≠ i ∧ d'.get s = d.get s := fun s hs => by
    rw [hget] at hs ⊢
    split_ifs at hs ⊢ with h
    · exact absurd rfl hs
    · exact ⟨h, rfl⟩
  refine ⟨fun x hx => ?_, fun x h1 h2 => ?_, fun s hs => ?_, fun s t hst hs => ?_⟩
  · refine (hused x).2 ⟨hd.reserved x hx, ?_⟩
    by_cases hx0 : x = 0
    · exact Or.inl hx0
    · refine Or.inr fun ⟨s, _, hs⟩ => ?_
      have := hd.range s (hs ▸ hx0)
      omega
  · have hx0 : x ≠ 0 := by have := nMeta_pos; omega
    rw [hused, hd.used_iff x h1 h2]
    constructor
    · rintro ⟨⟨s, hs⟩, hx⟩
      have hsi : s.ino ≠ i := fun h => (hx.resolve_left hx0) ⟨s, h, hs⟩
      exact ⟨s, by rw [hget, if_neg hsi, hs]⟩
    · rintro ⟨s, hs⟩
      obtain ⟨hsi, hss⟩ := hout s (hs ▸ hx0)
      refine ⟨⟨s, hss ▸ hs⟩, Or.inr fun ⟨t, hti, ht⟩ => hsi ?_⟩
      have : s = t := hd.unique s t (by rw [← hss, hs, ht]) (by rw [← hss, hs]; exact hx0)
      exact this ▸ hti
  · obtain ⟨-, hss⟩ := hout s hs
    rw [hss] at hs ⊢
    exact hd.range s hs
  · obtain ⟨-, hss⟩ := hout s hs
    obtain ⟨-, htt⟩ := hout t (hst ▸ hs)
    rw [hss, htt] at hst
    rw [hss] at hs
    exact hd.unique s t hst hs

/-! ### The allocator keeps the invariant -/

theorem Disk.firstFree_some {b : ℕ} (h : d.firstFree = some b) :
    b < fsSize ∧ d.used b = false := by
  unfold Disk.firstFree at h
  have hb := List.find?_some h
  exact ⟨List.mem_range.1 (List.mem_of_find?_eq_some h), by simpa using hb⟩

/-- The block `balloc` takes is a data block that no slot holds. -/
theorem BlockInv.fresh (hd : BlockInv d) {b : ℕ} (h : d.firstFree = some b) :
    (nMeta ≤ b ∧ b < fsSize) ∧ ∀ s, d.get s ≠ b := by
  obtain ⟨hlt, hfree⟩ := Disk.firstFree_some h
  have hb : nMeta ≤ b := by
    by_contra hb
    have := hd.reserved b (by omega)
    rw [hfree] at this
    cases this
  refine ⟨⟨hb, hlt⟩, fun s hs => ?_⟩
  have := (hd.used_iff b hb hlt).2 ⟨s, hs⟩
  rw [hfree] at this
  cases this

/-- `d'` differs from `d` at most in the bitmap, the indirect blocks and the addresses. -/
structure Disk.BlocksOnly (d d' : Disk) : Prop where
  type : ∀ k, (d'.inode k).type = (d.inode k).type
  major : ∀ k, (d'.inode k).major = (d.inode k).major
  nlink : ∀ k, (d'.inode k).nlink = (d.inode k).nlink
  size : ∀ k, (d'.inode k).size = (d.inode k).size
  dir : d'.dir = d.dir

theorem Disk.BlocksOnly.refl (d : Disk) : d.BlocksOnly d :=
  ⟨fun _ => rfl, fun _ => rfl, fun _ => rfl, fun _ => rfl, rfl⟩

theorem Disk.BlocksOnly.trans {d'' : Disk} (h : d.BlocksOnly d') (h' : d'.BlocksOnly d'') :
    d.BlocksOnly d'' :=
  ⟨fun k => (h'.type k).trans (h.type k), fun k => (h'.major k).trans (h.major k),
    fun k => (h'.nlink k).trans (h.nlink k), fun k => (h'.size k).trans (h.size k),
    h'.dir.trans h.dir⟩

theorem Disk.BlocksOnly.allocated (h : d.BlocksOnly d') (k : ℕ) :
    d'.Allocated k ↔ d.Allocated k := by
  unfold Disk.Allocated
  rw [h.type]

@[simp] theorem Disk.take_inode (d : Disk) (b : ℕ) : (d.take b).inode = d.inode := rfl
@[simp] theorem Disk.take_dir (d : Disk) (b : ℕ) : (d.take b).dir = d.dir := rfl
@[simp] theorem Disk.take_used (d : Disk) (b : ℕ) :
    (d.take b).used = Function.update d.used b true := rfl
@[simp] theorem Disk.take_ind (d : Disk) (b : ℕ) :
    (d.take b).ind = Function.update d.ind b fun _ => 0 := rfl

@[simp] theorem Disk.setAddr_ind (d : Disk) (i j b : ℕ) : (d.setAddr i j b).ind = d.ind := rfl
@[simp] theorem Disk.setAddr_used (d : Disk) (i j b : ℕ) : (d.setAddr i j b).used = d.used := rfl
@[simp] theorem Disk.setAddr_dir (d : Disk) (i j b : ℕ) : (d.setAddr i j b).dir = d.dir := rfl

theorem Disk.setAddr_addrs (d : Disk) (i j b k j' : ℕ) :
    ((d.setAddr i j b).inode k).addrs j' = if k = i ∧ j' = j then b else (d.inode k).addrs j' := by
  by_cases hk : k = i
  · subst hk
    by_cases hj : j' = j
    · subst hj
      simp [Disk.setAddr]
    · simp [Disk.setAddr, hj]
  · simp [Disk.setAddr, hk]

theorem Disk.BlocksOnly.setAddr (d : Disk) (i j b : ℕ) : d.BlocksOnly (d.setAddr i j b) := by
  refine ⟨fun k => ?_, fun k => ?_, fun k => ?_, fun k => ?_, rfl⟩ <;>
    · by_cases hk : k = i
      · subst hk
        simp [Disk.setAddr]
      · simp [Disk.setAddr, Function.update_of_ne hk]

/-- The slot of address `j ≤ NDIRECT` of inode `i`. -/
def Slot.addr (i j : ℕ) : Slot := if j < nDirect then .direct i j else .indirect i

/-- Taking a fresh block into the empty address `j` of inode `i` fills exactly that slot: for
the indirect address, the zeroed block has no entries. -/
theorem get_take_setAddr (hd : BlockInv d) {i j b : ℕ} (hi : d.Allocated i) (hj : j ≤ nDirect)
    (h0 : (d.inode i).addrs j = 0) (hfree : d.firstFree = some b) (s : Slot) :
    ((d.take b).setAddr i j b).get s = if s = Slot.addr i j then b else d.get s := by
  obtain ⟨hb, hnot⟩ := hd.fresh hfree
  have halloc : ∀ k, ((d.take b).setAddr i j b).Allocated k ↔ d.Allocated k :=
    (Disk.BlocksOnly.setAddr _ i j b).allocated
  -- the indirect blocks of the allocated inodes are not the fresh block
  have hother : ∀ k, d.Allocated k → (d.inode k).addrs nDirect ≠ b := fun k hk h =>
    hnot (.indirect k) (by simp [Disk.get, hk, h])
  have hb0 : b ≠ 0 := by have := nMeta_pos; omega
  rcases Nat.lt_or_ge j nDirect with hjn | hjn
  · -- a direct address: only that slot changes
    rw [show Slot.addr i j = .direct i j from if_pos hjn]
    cases s with
    | direct k j' =>
      simp only [Disk.get, halloc, Disk.setAddr_addrs, Disk.take_inode]
      by_cases hk : k = i <;> by_cases hjj : j' = j <;> simp_all
    | indirect k =>
      simp only [Disk.get, halloc, Disk.setAddr_addrs, Disk.take_inode]
      by_cases hk : k = i <;> simp_all [Nat.ne_of_gt hjn]
    | entry k e =>
      simp only [Disk.get, halloc, Disk.setAddr_addrs, Disk.take_inode, Disk.setAddr_ind,
        Disk.take_ind]
      by_cases hak : d.Allocated k
      · have := hother k hak
        by_cases hk : k = i <;> simp_all [Nat.ne_of_gt hjn]
      · simp_all
  · -- the indirect address: the zeroed block brings no entries with it
    obtain rfl : j = nDirect := by omega
    rw [show Slot.addr i nDirect = .indirect i from if_neg (lt_irrefl _)]
    cases s with
    | direct k j' =>
      simp only [Disk.get, halloc, Disk.setAddr_addrs, Disk.take_inode]
      by_cases hk : k = i <;> by_cases hjj : j' = nDirect <;> simp_all
    | indirect k =>
      simp only [Disk.get, halloc, Disk.setAddr_addrs, Disk.take_inode]
      by_cases hk : k = i <;> simp_all
    | entry k e =>
      simp only [Disk.get, halloc, Disk.setAddr_addrs, Disk.take_inode, Disk.setAddr_ind,
        Disk.take_ind]
      by_cases hak : d.Allocated k
      · have := hother k hak
        by_cases hk : k = i <;> simp_all
      · simp_all

/-- Where the blocks are depends only on the inodes' types and addresses and on the indirect
blocks. -/
theorem Disk.get_congr (htype : ∀ k, (d'.inode k).type = (d.inode k).type)
    (haddrs : ∀ k, (d'.inode k).addrs = (d.inode k).addrs) (hind : d'.ind = d.ind) (s : Slot) :
    d'.get s = d.get s := by
  cases s <;> simp only [Disk.get, Disk.Allocated, htype, haddrs, hind] <;>
    exact if_congr Iff.rfl rfl rfl

/-- Rewriting an inode with its type and addresses unchanged moves no block. -/
theorem get_setInode_same (d : Disk) {i : ℕ} {ip : Dinode} (htype : ip.type = (d.inode i).type)
    (haddrs : ip.addrs = (d.inode i).addrs) (s : Slot) : (d.setInode i ip).get s = d.get s := by
  apply Disk.get_congr
  · intro k
    by_cases hki : k = i
    · subst hki
      simp [htype]
    · simp [Function.update_of_ne hki]
  · intro k
    by_cases hki : k = i
    · subst hki
      simp [haddrs]
    · simp [Function.update_of_ne hki]
  · rfl

theorem Disk.BlocksOnly.take (d : Disk) (b : ℕ) : d.BlocksOnly (d.take b) :=
  ⟨fun _ => rfl, fun _ => rfl, fun _ => rfl, fun _ => rfl, rfl⟩

theorem Disk.BlocksOnly.setInd (d : Disk) (blk k b : ℕ) : d.BlocksOnly (d.setInd blk k b) :=
  ⟨fun _ => rfl, fun _ => rfl, fun _ => rfl, fun _ => rfl, rfl⟩

/-- What `allocAddr` does: keep a non-zero address, fail on a full disk, or take a block. -/
theorem allocAddr_cases (d : Disk) (i j : ℕ) :
    ((d.inode i).addrs j ≠ 0 ∧ allocAddr d i j = (d, (d.inode i).addrs j)) ∨
    ((d.inode i).addrs j = 0 ∧ d.firstFree = none ∧ allocAddr d i j = (d, 0)) ∨
    (∃ b, (d.inode i).addrs j = 0 ∧ d.firstFree = some b ∧
      (b = 0 ∧ allocAddr d i j = (d.take b, 0) ∨
        b ≠ 0 ∧ allocAddr d i j = ((d.take b).setAddr i j b, b))) := by
  unfold allocAddr balloc
  by_cases h0 : (d.inode i).addrs j = 0
  · rw [if_pos h0]
    cases hf : d.firstFree with
    | none => exact .inr (.inl ⟨h0, rfl, rfl⟩)
    | some b =>
      refine .inr (.inr ⟨b, h0, rfl, ?_⟩)
      by_cases hb : b = 0
      · subst hb
        exact .inl ⟨rfl, rfl⟩
      · refine .inr ⟨hb, ?_⟩
        dsimp only
        split
        · rename_i h
          cases hb (Prod.mk.inj h).2
        · rename_i h
          obtain ⟨rfl, rfl⟩ := Prod.mk.inj h
          rfl
  · exact .inl ⟨h0, if_neg h0⟩

/-- What `allocEntry` does. -/
theorem allocEntry_cases (d : Disk) (blk k : ℕ) :
    (d.ind blk k ≠ 0 ∧ allocEntry d blk k = (d, d.ind blk k)) ∨
    (d.ind blk k = 0 ∧ d.firstFree = none ∧ allocEntry d blk k = (d, 0)) ∨
    (∃ b, d.ind blk k = 0 ∧ d.firstFree = some b ∧
      (b = 0 ∧ allocEntry d blk k = (d.take b, 0) ∨
        b ≠ 0 ∧ allocEntry d blk k = ((d.take b).setInd blk k b, b))) := by
  unfold allocEntry balloc
  by_cases h0 : d.ind blk k = 0
  · rw [if_pos h0]
    cases hf : d.firstFree with
    | none => exact .inr (.inl ⟨h0, rfl, rfl⟩)
    | some b =>
      refine .inr (.inr ⟨b, h0, rfl, ?_⟩)
      by_cases hb : b = 0
      · subst hb
        exact .inl ⟨rfl, rfl⟩
      · refine .inr ⟨hb, ?_⟩
        dsimp only
        split
        · rename_i h
          cases hb (Prod.mk.inj h).2
        · rename_i h
          obtain ⟨rfl, rfl⟩ := Prod.mk.inj h
          rfl
  · exact .inl ⟨h0, if_neg h0⟩

/-- `allocAddr` keeps the invariant, moves nothing but blocks, and returns the address it leaves
in the slot. -/
theorem BlockInv.allocAddr (hd : BlockInv d) {i j : ℕ} (hi : d.Allocated i) (hj : j ≤ nDirect) :
    BlockInv (allocAddr d i j).1 ∧ d.BlocksOnly (allocAddr d i j).1 ∧
      (allocAddr d i j).2 = ((allocAddr d i j).1.inode i).addrs j := by
  rcases allocAddr_cases d i j with ⟨-, h⟩ | ⟨h0, -, h⟩ | ⟨b, h0, hfree, ⟨rfl, -⟩ | ⟨-, h⟩⟩
  · rw [h]
    exact ⟨hd, .refl d, rfl⟩
  · rw [h]
    exact ⟨hd, .refl d, h0.symm⟩
  · exact absurd (hd.fresh hfree).1.1 (by have := nMeta_pos; omega)
  · rw [h]
    obtain ⟨hb, hnot⟩ := hd.fresh hfree
    have hs0 : d.get (Slot.addr i j) = 0 := by
      unfold Slot.addr
      split_ifs with hjn
      · simp [Disk.get, hi, hjn, h0]
      · obtain rfl : j = nDirect := by omega
        simp [Disk.get, hi, h0]
    refine ⟨hd.attach hb hnot hs0 rfl (get_take_setAddr hd hi hj h0 hfree),
      (Disk.BlocksOnly.take d b).trans (.setAddr _ i j b), ?_⟩
    simp [Disk.setAddr_addrs]

/-- Taking a fresh block into the empty entry `k` of inode `i`'s indirect block fills exactly
that slot. -/
theorem get_take_setInd (hd : BlockInv d) {i k b : ℕ} (hi : d.Allocated i)
    (hblk : (d.inode i).addrs nDirect ≠ 0) (hk : k < nIndirect)
    (h0 : d.ind ((d.inode i).addrs nDirect) k = 0) (hfree : d.firstFree = some b) (s : Slot) :
    ((d.take b).setInd ((d.inode i).addrs nDirect) k b).get s =
      if s = .entry i k then b else d.get s := by
  obtain ⟨hb, hnot⟩ := hd.fresh hfree
  have hother : ∀ k', d.Allocated k' → (d.inode k').addrs nDirect ≠ b := fun k' hk' h =>
    hnot (.indirect k') (by simp [Disk.get, hk', h])
  have halloc : ∀ k', ((d.take b).setInd ((d.inode i).addrs nDirect) k b).Allocated k' ↔
      d.Allocated k' := ((Disk.BlocksOnly.take d b).trans (.setInd _ _ k b)).allocated
  cases s with
  | direct k' j =>
    rw [if_neg (by simp)]
    rfl
  | indirect k' =>
    rw [if_neg (by simp)]
    rfl
  | entry k' e =>
    by_cases hak : d.Allocated k' ∧ (d.inode k').addrs nDirect ≠ 0 ∧ e < nIndirect
    · have hold : d.get (.entry k' e) = d.ind ((d.inode k').addrs nDirect) e := if_pos hak
      have hnew : ((d.take b).setInd ((d.inode i).addrs nDirect) k b).get (.entry k' e) =
          Function.update (Function.update d.ind b fun _ => 0) ((d.inode i).addrs nDirect)
            (Function.update ((Function.update d.ind b fun _ => 0) ((d.inode i).addrs nDirect))
              k b) ((d.inode k').addrs nDirect) e :=
        if_pos ⟨(halloc k').2 hak.1, hak.2⟩
      rw [hnew, hold]
      have hk'b := hother k' hak.1
      by_cases hsame : (d.inode k').addrs nDirect = (d.inode i).addrs nDirect
      · -- the same indirect block belongs to the same inode
        have hki : k' = i := by
          have := hd.unique (.indirect k') (.indirect i) (by simp [Disk.get, hak.1, hi, hsame])
            (by simp [Disk.get, hak.1, hak.2.1])
          cases this
          rfl
        subst hki
        rw [Function.update_self, Function.update_of_ne (hother k' hi)]
        by_cases hek : e = k
        · subst hek
          simp
        · simp [hek]
      · have hne : Slot.entry k' e ≠ .entry i k := fun h => by cases h; exact hsame rfl
        rw [if_neg hne, Function.update_of_ne hsame, Function.update_of_ne hk'b]
    · have hold : d.get (.entry k' e) = 0 := if_neg hak
      have hnew : ((d.take b).setInd ((d.inode i).addrs nDirect) k b).get (.entry k' e) = 0 :=
        if_neg fun h => hak ⟨(halloc k').1 h.1, h.2⟩
      rw [hnew, hold, if_neg]
      rintro ⟨⟩
      exact hak ⟨hi, hblk, hk⟩

/-- `allocEntry` on inode `i`'s indirect block keeps the invariant and moves nothing but blocks. -/
theorem BlockInv.allocEntry (hd : BlockInv d) {i k : ℕ} (hi : d.Allocated i)
    (hblk : (d.inode i).addrs nDirect ≠ 0) (hk : k < nIndirect) :
    BlockInv (allocEntry d ((d.inode i).addrs nDirect) k).1 ∧
      d.BlocksOnly (allocEntry d ((d.inode i).addrs nDirect) k).1 := by
  rcases allocEntry_cases d ((d.inode i).addrs nDirect) k with
    ⟨-, h⟩ | ⟨-, -, h⟩ | ⟨b, h0, hfree, ⟨rfl, -⟩ | ⟨-, h⟩⟩
  · rw [h]
    exact ⟨hd, .refl d⟩
  · rw [h]
    exact ⟨hd, .refl d⟩
  · exact absurd (hd.fresh hfree).1.1 (by have := nMeta_pos; omega)
  · rw [h]
    obtain ⟨hb, hnot⟩ := hd.fresh hfree
    have hs0 : d.get (.entry i k) = 0 := by simp [Disk.get, hi, hblk, hk, h0]
    exact ⟨hd.attach hb hnot hs0 rfl (get_take_setInd hd hi hblk hk h0 hfree),
      (Disk.BlocksOnly.take d b).trans (.setInd _ _ k b)⟩

/-- `bmap` on an allocated inode keeps the invariant and moves nothing but blocks. -/
theorem BlockInv.bmap (hd : BlockInv d) {i bn a : ℕ} (hi : d.Allocated i)
    (h : bmap d i bn = .ok (d', a)) : BlockInv d' ∧ d.BlocksOnly d' := by
  unfold Fs.bmap at h
  split_ifs at h with hbn hind
  · obtain ⟨hd1, hb1, -⟩ := hd.allocAddr hi hbn.le
    rw [Except.ok.inj h] at hd1 hb1
    exact ⟨hd1, hb1⟩
  · obtain ⟨hd1, hb1, hsnd⟩ := hd.allocAddr hi le_rfl
    have hi1 := (hb1.allocated i).2 hi
    split at h
    · rename_i d1 heq
      cases h
      rw [heq] at hd1 hb1
      exact ⟨hd1, hb1⟩
    · rename_i d1 blk hblk0 heq
      rw [heq] at hd1 hb1 hsnd hi1
      dsimp only at hd1 hb1 hsnd hi1
      rw [hsnd] at hblk0 h
      obtain ⟨hd2, hb2⟩ := hd1.allocEntry hi1 hblk0 hind
      rw [Except.ok.inj h] at hd2 hb2
      exact ⟨hd2, hb1.trans hb2⟩

/-- The loop of `writei` keeps the invariant and moves nothing but blocks. -/
theorem BlockInv.writeLoop {i n : ℕ} {ok : ℕ → Bool} :
    ∀ (fuel : ℕ) {d d' : Disk} {tot off tot' off' : ℕ}, BlockInv d → d.Allocated i →
      writeLoop i n ok fuel d tot off = .ok (d', tot', off') → BlockInv d' ∧ d.BlocksOnly d'
  | 0, d, d', tot, off, tot', off', hd, _, h => by
    cases h
    exact ⟨hd, .refl d⟩
  | fuel + 1, d, d', tot, off, tot', off', hd, hi, h => by
    unfold Fs.writeLoop at h
    by_cases htot : tot < n
    · rw [if_pos htot] at h
      split at h
      · cases h
      · rename_i d1 heq
        cases h
        exact hd.bmap hi heq
      · rename_i d1 a ha heq
        obtain ⟨hd1, hb1⟩ := hd.bmap hi heq
        by_cases hok : ok tot = true
        · rw [if_pos hok] at h
          obtain ⟨hd2, hb2⟩ := BlockInv.writeLoop fuel hd1 ((hb1.allocated i).2 hi) h
          exact ⟨hd2, hb1.trans hb2⟩
        · rw [if_neg hok] at h
          cases h
          exact ⟨hd1, hb1⟩
    · rw [if_neg htot] at h
      cases h
      exact ⟨hd, .refl d⟩

/-- `writei` on an allocated inode keeps the invariant; it changes no inode's type, link count
or device, and no directory's entries, and of the sizes only inode `i`'s. -/
theorem BlockInv.writei (hd : BlockInv d) {i off n : ℕ} {ok : ℕ → Bool} {r : ℤ}
    (hi : d.Allocated i) (h : Fs.writei d i off n ok = .ok (d', r)) :
    BlockInv d' ∧ (∀ k, (d'.inode k).type = (d.inode k).type ∧
      (d'.inode k).major = (d.inode k).major ∧ (d'.inode k).nlink = (d.inode k).nlink ∧
      (k ≠ i → (d'.inode k).size = (d.inode k).size)) ∧ d'.dir = d.dir := by
  unfold Fs.writei at h
  split_ifs at h
  · cases h
    exact ⟨hd, fun _ => ⟨rfl, rfl, rfl, fun _ => rfl⟩, rfl⟩
  · cases h
    exact ⟨hd, fun _ => ⟨rfl, rfl, rfl, fun _ => rfl⟩, rfl⟩
  · split at h
    · cases h
    · rename_i d1 tot off' heq
      cases h
      obtain ⟨hd1, hb1⟩ := BlockInv.writeLoop n hd hi heq
      refine ⟨hd1.congr (get_setInode_same d1 rfl rfl) rfl, fun k => ?_, hb1.dir⟩
      by_cases hk : k = i
      · subst hk
        simp [hb1.type, hb1.major, hb1.nlink]
      · simp [Function.update_of_ne hk, hb1.type, hb1.major, hb1.nlink, hb1.size]

/-! ### `itrunc` frees exactly what the inode holds -/

theorem bfree_ok {b : ℕ} (h : d.used b = true) :
    bfree d b = .ok { d with used := Function.update d.used b false } := if_pos h

/-- `d'` differs from `d` at most in the bitmap. -/
structure Disk.BitmapOnly (d d' : Disk) : Prop where
  inode : d'.inode = d.inode
  ind : d'.ind = d.ind
  dir : d'.dir = d.dir

theorem Disk.BitmapOnly.trans {d'' : Disk} (h : d.BitmapOnly d') (h' : d'.BitmapOnly d'') :
    d.BitmapOnly d'' :=
  ⟨h'.inode.trans h.inode, h'.ind.trans h.ind, h'.dir.trans h.dir⟩

/-- `bfree` changes nothing but the bitmap. -/
theorem bfree_frame {b : ℕ} (h : bfree d b = .ok d') : d.BitmapOnly d' := by
  unfold bfree at h
  split_ifs at h
  cases h
  exact ⟨rfl, rfl, rfl⟩

/-- Nor does `bfreeAll`. -/
theorem bfreeAll_frame : ∀ {d d' : Disk} {bs : List ℕ}, bfreeAll d bs = .ok d' → d.BitmapOnly d'
  | d, d', [], h => by
    cases h
    exact ⟨rfl, rfl, rfl⟩
  | d, d', b :: bs, h => by
    unfold bfreeAll at h
    split_ifs at h
    · exact bfreeAll_frame h
    · split at h
      · rename_i d1 heq
        exact (bfree_frame heq).trans (bfreeAll_frame h)
      · cases h

/-- `itrunc` empties inode `i` and changes no other inode and no directory, whether or not the
bitmap agrees with the inodes. -/
theorem itrunc_frame {i : ℕ} (h : itrunc d i = .ok d') :
    d'.inode = Function.update d.inode i { d.inode i with size := 0, addrs := fun _ => 0 } ∧
      d'.dir = d.dir := by
  unfold itrunc at h
  dsimp only at h
  split at h
  · cases h
  rename_i d1 heq1
  -- the indirect block and its entries are freed, then the inode is emptied
  obtain ⟨d2, rfl, hf⟩ : ∃ d2 : Disk,
      d' = d2.setInode i { d2.inode i with size := 0, addrs := fun _ => 0 } ∧ d.BitmapOnly d2 := by
    split_ifs at h
    · exact ⟨d1, (Except.ok.inj h).symm, bfreeAll_frame heq1⟩
    · split at h
      · cases h
      rename_i d3 heq3
      refine ⟨d3, (Except.ok.inj h).symm, ?_⟩
      split at heq3
      · cases heq3
      rename_i d4 heq4
      exact ((bfreeAll_frame heq1).trans (bfreeAll_frame heq4)).trans (bfree_frame heq3)
  exact ⟨by rw [Disk.setInode_inode, hf.inode], hf.dir⟩

/-- A slot reads only its own inode and the indirect blocks. -/
theorem Disk.get_congr_ino {s : Slot} (hk : d'.inode s.ino = d.inode s.ino) (hind : d'.ind = d.ind) :
    d'.get s = d.get s := by
  cases s <;> simp only [Slot.ino] at hk <;> simp only [Disk.get, Disk.Allocated, hk, hind] <;>
    exact if_congr Iff.rfl rfl rfl

/-- `bfreeAll` over blocks in use, each non-zero one listed once, succeeds and clears their bits
(and, by `bfreeAll_frame`, nothing else). -/
theorem bfreeAll_ok : ∀ {d : Disk} {bs : List ℕ}, (∀ b ∈ bs, b ≠ 0 → d.used b = true) →
    (bs.filter (· ≠ 0)).Nodup →
    ∃ d', bfreeAll d bs = .ok d' ∧ ∀ x, d'.used x = if x ≠ 0 ∧ x ∈ bs then false else d.used x
  | d, [], _, _ => ⟨d, rfl, fun x => by simp⟩
  | d, b :: bs, hused, hnd => by
    by_cases hb : b = 0
    · subst hb
      have hnd' : (bs.filter (· ≠ 0)).Nodup := by simpa using hnd
      obtain ⟨d', h, h4⟩ := bfreeAll_ok (fun c hc => hused c (List.mem_cons_of_mem _ hc)) hnd'
      refine ⟨d', by rw [bfreeAll, if_pos rfl, h], fun x => ?_⟩
      rw [h4]
      by_cases hx : x = 0 <;> simp [hx]
    · rw [List.filter_cons_of_pos (by simpa using hb), List.nodup_cons] at hnd
      -- the rest of the list does not hold `b` again, so its blocks stay in use
      have hused' : ∀ c ∈ bs, c ≠ 0 → (Function.update d.used b false) c = true := by
        intro c hc hc0
        have hcb : c ≠ b := fun h => by
          subst h
          exact hnd.1 (List.mem_filter.2 ⟨hc, by simpa using hc0⟩)
        rw [Function.update_of_ne hcb]
        exact hused c (List.mem_cons_of_mem _ hc) hc0
      obtain ⟨d', h, h4⟩ :=
        bfreeAll_ok (d := { d with used := Function.update d.used b false }) hused' hnd.2
      refine ⟨d', ?_, fun x => ?_⟩
      · rw [bfreeAll, if_neg hb, bfree_ok (hused b List.mem_cons_self hb)]
        exact h
      rw [h4]
      by_cases hxb : x = b
      · subst hxb
        simp [hb]
      · simp [hxb]

/-- The non-zero values of `f` on `[0, n)`, when no two of them are equal. -/
theorem nodup_filter_map_range {n : ℕ} {f : ℕ → ℕ}
    (hf : ∀ j < n, ∀ j' < n, f j = f j' → f j ≠ 0 → j = j') :
    (((List.range n).map f).filter (· ≠ 0)).Nodup := by
  rw [List.filter_map]
  refine List.Nodup.map_on (fun x hx y hy hxy => ?_) (List.nodup_range.filter _)
  simp only [List.mem_filter, List.mem_range, Function.comp_apply, decide_eq_true_eq] at hx hy
  exact hf x hx.1 y hy.1 hxy hx.2

/-- The blocks inode `i` holds, in the order `itrunc` visits them. -/
theorem Disk.holds_iff (d : Disk) {i x : ℕ} (hi : d.Allocated i) (hx : x ≠ 0) :
    d.Holds i x ↔ x ∈ (List.range nDirect).map (d.inode i).addrs ∨
      ((d.inode i).addrs nDirect ≠ 0 ∧ (x = (d.inode i).addrs nDirect ∨
        x ∈ (List.range nIndirect).map (d.ind ((d.inode i).addrs nDirect)))) := by
  constructor
  · rintro ⟨s, hsi, hs⟩
    cases s with
    | direct k j =>
      obtain rfl : k = i := hsi
      simp only [Disk.get] at hs
      split_ifs at hs with h
      · exact .inl (List.mem_map.2 ⟨j, List.mem_range.2 h.2, hs⟩)
      · exact absurd hs.symm hx
    | indirect k =>
      obtain rfl : k = i := hsi
      have hs' : d.get (.indirect k) = (d.inode k).addrs nDirect := if_pos hi
      rw [hs'] at hs
      exact .inr ⟨hs ▸ hx, .inl hs.symm⟩
    | entry k e =>
      obtain rfl : k = i := hsi
      simp only [Disk.get] at hs
      split_ifs at hs with h
      · exact .inr ⟨h.2.1, .inr (List.mem_map.2 ⟨e, List.mem_range.2 h.2.2, hs⟩)⟩
      · exact absurd hs.symm hx
  · rintro (hmem | ⟨hblk, rfl | hmem⟩)
    · obtain ⟨j, hj, rfl⟩ := List.mem_map.1 hmem
      exact ⟨.direct i j, rfl, by simp [Disk.get, hi, List.mem_range.1 hj]⟩
    · exact ⟨.indirect i, rfl, by simp [Disk.get, hi]⟩
    · obtain ⟨e, he, rfl⟩ := List.mem_map.1 hmem
      exact ⟨.entry i e, rfl, by simp [Disk.get, hi, hblk, List.mem_range.1 he]⟩

/-- A disk that agrees with `d` but for the bitmap, which has dropped exactly the blocks inode
`i` holds, keeps the invariant once `i` is emptied. -/
theorem BlockInv.empty (hd : BlockInv d) {i : ℕ} (hin : d'.inode = d.inode) (hind : d'.ind = d.ind)
    (hused : ∀ x, d'.used x = true ↔ d.used x = true ∧ (x = 0 ∨ ¬ d.Holds i x)) :
    BlockInv (d'.setInode i { d'.inode i with size := 0, addrs := fun _ => 0 }) := by
  refine hd.detach (by simpa using hused) fun s => ?_
  by_cases hs : s.ino = i
  · rw [if_pos hs]
    cases s <;> simp only [Slot.ino] at hs <;> subst hs <;> simp [Disk.get]
  · rw [if_neg hs]
    exact Disk.get_congr_ino (by simp [Function.update_of_ne hs, hin]) (by simp [hind])

/-- Under the invariant `itrunc` of an allocated inode frees its blocks without reaching
`bfree`'s panic, and keeps the invariant: it empties the inode and changes nothing else but the
bitmap. -/
theorem BlockInv.itrunc (hd : BlockInv d) {i : ℕ} (hi : d.Allocated i) :
    ∃ d', Fs.itrunc d i = .ok d' ∧ BlockInv d' ∧
      d'.inode = Function.update d.inode i { d.inode i with size := 0, addrs := fun _ => 0 } ∧
      d'.dir = d.dir := by
  suffices h : ∃ d', Fs.itrunc d i = .ok d' ∧ BlockInv d' by
    obtain ⟨d', h, hinv⟩ := h
    exact ⟨d', h, hinv, itrunc_frame h⟩
  -- every block `i` holds is in use, and held by one slot only
  have hheld : ∀ s, s.ino = i → d.get s ≠ 0 → d.used (d.get s) = true := fun s _ hs =>
    (hd.used_iff _ (hd.range s hs).1 (hd.range s hs).2).2 ⟨s, rfl⟩
  have hdirect : ∀ j < nDirect, d.get (.direct i j) = (d.inode i).addrs j := fun j hj => by
    simp [Disk.get, hi, hj]
  have hentry : ∀ k < nIndirect, (d.inode i).addrs nDirect ≠ 0 →
      d.get (.entry i k) = d.ind ((d.inode i).addrs nDirect) k := fun k hk hb => by
    simp [Disk.get, hi, hb, hk]
  have hone : ∀ s t, d.get s = d.get t → d.get s ≠ 0 → s = t := hd.unique
  -- the direct blocks
  have hL1used : ∀ b ∈ (List.range nDirect).map (d.inode i).addrs, b ≠ 0 → d.used b = true := by
    intro b hb hb0
    obtain ⟨j, hj, rfl⟩ := List.mem_map.1 hb
    rw [← hdirect j (List.mem_range.1 hj)] at hb0 ⊢
    exact hheld _ rfl hb0
  have hL1nd := nodup_filter_map_range (n := nDirect) (f := (d.inode i).addrs)
    fun j hj j' hj' h h0 => by
      have := hone (.direct i j) (.direct i j') (by rw [hdirect j hj, hdirect j' hj', h])
        (by rw [hdirect j hj]; exact h0)
      cases this
      rfl
  obtain ⟨d1, h1, hused1⟩ := bfreeAll_ok hL1used hL1nd
  obtain ⟨hi1, hind1, -⟩ := bfreeAll_frame h1
  -- no direct block is an entry of the indirect block, nor the indirect block itself
  have hnotdirect : ∀ s, d.get s ≠ 0 → (∀ j, s ≠ .direct i j) →
      d.get s ∉ (List.range nDirect).map (d.inode i).addrs := fun s hs hsd hmem => by
    obtain ⟨j, hj, hjs⟩ := List.mem_map.1 hmem
    have := hone s (.direct i j) (by rw [hdirect j (List.mem_range.1 hj), hjs]) hs
    exact hsd j this
  unfold Fs.itrunc
  simp only [h1]
  by_cases hblk : (d.inode i).addrs nDirect = 0
  · rw [if_pos hblk]
    refine ⟨_, rfl, hd.empty hi1 hind1 fun x => ?_⟩
    rw [hused1 x]
    by_cases hx : x = 0
    · simp [hx]
    · rw [d.holds_iff hi hx]
      by_cases hmem : x ∈ (List.range nDirect).map (d.inode i).addrs <;> simp [hx, hmem, hblk]
  · rw [if_neg hblk]
    -- the entries of the indirect block, then the block
    have hL2used : ∀ b ∈ (List.range nIndirect).map (d1.ind ((d.inode i).addrs nDirect)),
        b ≠ 0 → d1.used b = true := by
      intro b hb hb0
      rw [hind1] at hb
      obtain ⟨k, hk, rfl⟩ := List.mem_map.1 hb
      rw [← hentry k (List.mem_range.1 hk) hblk] at hb0 ⊢
      rw [hused1, if_neg fun h => hnotdirect _ hb0 (fun j h' => by cases h') h.2]
      exact hheld _ rfl hb0
    have hL2nd := nodup_filter_map_range (n := nIndirect) (f := d1.ind ((d.inode i).addrs nDirect))
      fun k hk k' hk' h h0 => by
        rw [hind1] at h h0
        have := hone (.entry i k) (.entry i k') (by rw [hentry k hk hblk, hentry k' hk' hblk, h])
          (by rw [hentry k hk hblk]; exact h0)
        cases this
        rfl
    obtain ⟨d2, h2, hused2⟩ := bfreeAll_ok hL2used hL2nd
    obtain ⟨hi2, hind2, -⟩ := bfreeAll_frame h2
    rw [h2]
    dsimp only
    -- the indirect block is still in use
    have hblkused : d2.used ((d.inode i).addrs nDirect) = true := by
      have hs : d.get (.indirect i) = (d.inode i).addrs nDirect := by simp [Disk.get, hi]
      rw [hused2, if_neg, hused1, if_neg]
      · exact hs ▸ hheld _ rfl (hs ▸ hblk)
      · exact fun h => hnotdirect (.indirect i) (hs ▸ hblk) (fun j h' => by cases h') (hs ▸ h.2)
      · rintro ⟨-, hmem⟩
        rw [hind1] at hmem
        obtain ⟨k, hk, hks⟩ := List.mem_map.1 hmem
        have := hone (.entry i k) (.indirect i) (by rw [hentry k (List.mem_range.1 hk) hblk, hks, hs])
          (by rw [hentry k (List.mem_range.1 hk) hblk, hks]; exact hblk)
        cases this
    rw [bfree_ok hblkused]
    dsimp only
    refine ⟨_, rfl, hd.empty (hi2.trans hi1) (hind2.trans hind1) fun x => ?_⟩
    dsimp only
    by_cases hx : x = 0
    · subst hx
      rw [Function.update_of_ne (Ne.symm hblk), hused2, hused1]
      simp
    · rw [d.holds_iff hi hx, ← hind1]
      by_cases hxb : x = (d.inode i).addrs nDirect
      · subst hxb
        simp [hblk]
      · rw [Function.update_of_ne hxb, hused2, hused1]
        by_cases h2m : x ∈ (List.range nIndirect).map (d1.ind ((d.inode i).addrs nDirect)) <;>
          by_cases h1m : x ∈ (List.range nDirect).map (d.inode i).addrs <;>
          simp [hx, hxb, h1m, h2m, hblk]

/-! ### The other operations -/

/-- `bmap`'s only panic. -/
theorem bmap_error {i bn : ℕ} {e : String} (h : bmap d i bn = .error e) :
    e = "bmap: out of range" := by
  unfold Fs.bmap at h
  by_cases h1 : bn < nDirect
  · rw [if_pos h1] at h
    cases h
  · rw [if_neg h1] at h
    by_cases h2 : bn - nDirect < nIndirect
    · rw [if_pos h2] at h
      split at h <;> cases h
    · rw [if_neg h2] at h
      cases h
      rfl

/-- Nor has `writei` another. -/
theorem writeLoop_error {i n : ℕ} {ok : ℕ → Bool} {e : String} :
    ∀ (fuel : ℕ) {d : Disk} {tot off : ℕ}, writeLoop i n ok fuel d tot off = .error e →
      e = "bmap: out of range"
  | 0, d, tot, off, h => by cases h
  | fuel + 1, d, tot, off, h => by
    unfold Fs.writeLoop at h
    by_cases htot : tot < n
    · rw [if_pos htot] at h
      split at h
      · cases h
        exact bmap_error ‹_›
      · cases h
      · by_cases hok : ok tot = true
        · rw [if_pos hok] at h
          exact writeLoop_error fuel h
        · rw [if_neg hok] at h
          cases h
    · rw [if_neg htot] at h
      cases h

theorem writei_error {i off n : ℕ} {ok : ℕ → Bool} {e : String}
    (h : Fs.writei d i off n ok = .error e) : e = "bmap: out of range" := by
  unfold Fs.writei at h
  by_cases h1 : (d.inode i).size < off
  · rw [if_pos h1] at h
    cases h
  · rw [if_neg h1] at h
    by_cases h2 : maxFile * bsize < off + n
    · rw [if_pos h2] at h
      cases h
    · rw [if_neg h2] at h
      split at h
      · cases h
        exact writeLoop_error n ‹_›
      · cases h

/-- Directory entries hold no block. -/
theorem BlockInv.setDir (hd : BlockInv d) (i k : ℕ) (e : Dirent) : BlockInv (d.setDir i k e) :=
  hd.congr (Disk.get_congr (fun _ => rfl) (fun _ => rfl) rfl) rfl

/-- A free inode, or one with no addresses, holds no block. -/
theorem Disk.get_eq_zero {s : Slot} (h : ¬ d.Allocated s.ino ∨ (d.inode s.ino).addrs = fun _ => 0) :
    d.get s = 0 := by
  cases s <;> simp only [Slot.ino] at h <;> rcases h with h | h <;> simp [Disk.get, h]

/-- Writing an inode with no addresses over one that holds no block (`ialloc`, and `iput` after
`itrunc`) keeps the invariant. -/
theorem BlockInv.setInode_empty (hd : BlockInv d) {k : ℕ} {ip : Dinode}
    (hip : ip.addrs = fun _ => 0) (hk : ¬ d.Allocated k ∨ (d.inode k).addrs = fun _ => 0) :
    BlockInv (d.setInode k ip) := by
  refine hd.congr (fun s => ?_) rfl
  by_cases hs : s.ino = k
  · rw [Disk.get_eq_zero (.inr (by simp [hs, hip])), Disk.get_eq_zero (hs ▸ hk)]
  · exact Disk.get_congr_ino (by simp [Function.update_of_ne hs]) rfl

end BlockInv

/-! ### What `writei` does to the inodes, whatever the bitmap says -/

section Writei

variable {d d' : Disk}

theorem allocAddr_blocksOnly (d : Disk) (i j : ℕ) : d.BlocksOnly (allocAddr d i j).1 := by
  rcases allocAddr_cases d i j with ⟨-, h⟩ | ⟨-, -, h⟩ | ⟨b, -, -, ⟨-, h⟩ | ⟨-, h⟩⟩ <;> rw [h]
  · exact .refl d
  · exact .refl d
  · exact .take d b
  · exact (Disk.BlocksOnly.take d b).trans (.setAddr _ i j b)

theorem allocEntry_blocksOnly (d : Disk) (blk k : ℕ) : d.BlocksOnly (allocEntry d blk k).1 := by
  rcases allocEntry_cases d blk k with ⟨-, h⟩ | ⟨-, -, h⟩ | ⟨b, -, -, ⟨-, h⟩ | ⟨-, h⟩⟩ <;> rw [h]
  · exact .refl d
  · exact .refl d
  · exact .take d b
  · exact (Disk.BlocksOnly.take d b).trans (.setInd _ _ k b)

/-- `bmap` moves nothing but blocks. -/
theorem bmap_blocksOnly {i bn a : ℕ} (h : bmap d i bn = .ok (d', a)) : d.BlocksOnly d' := by
  unfold Fs.bmap at h
  split_ifs at h with hbn hind
  · rw [← (Prod.mk.inj (Except.ok.inj h)).1]
    exact allocAddr_blocksOnly d i bn
  · have h1 := allocAddr_blocksOnly d i nDirect
    split at h
    · rename_i d1 heq
      cases h
      rw [heq] at h1
      exact h1
    · rename_i d1 blk _ heq
      rw [heq] at h1
      dsimp only at h1
      rw [← (Prod.mk.inj (Except.ok.inj h)).1]
      exact h1.trans (allocEntry_blocksOnly d1 blk (bn - nDirect))

/-- Below `MAXFILE`, `bmap` does not panic. -/
theorem bmap_ok {i bn : ℕ} (hbn : bn < maxFile) : ∃ d' a, bmap d i bn = .ok (d', a) := by
  unfold Fs.bmap
  split_ifs with hd hind
  · exact ⟨_, _, rfl⟩
  · split
    · exact ⟨_, _, rfl⟩
    · exact ⟨_, _, rfl⟩
  · exact absurd hbn (by unfold maxFile; omega)

/-- The loop of `writei` moves nothing but blocks; the offset moves with the bytes written, and
no more than `n` are written. -/
theorem writeLoop_frame {i n : ℕ} {ok : ℕ → Bool} :
    ∀ (fuel : ℕ) {d d' : Disk} {tot off tot' off' : ℕ}, tot ≤ n →
      writeLoop i n ok fuel d tot off = .ok (d', tot', off') →
      d.BlocksOnly d' ∧ off' + tot = off + tot' ∧ tot ≤ tot' ∧ tot' ≤ n
  | 0, d, d', tot, off, tot', off', hn, h => by
    cases h
    exact ⟨.refl d, rfl, le_rfl, hn⟩
  | fuel + 1, d, d', tot, off, tot', off', hn, h => by
    unfold Fs.writeLoop at h
    by_cases htot : tot < n
    · rw [if_pos htot] at h
      split at h
      · cases h
      · rename_i d1 heq
        cases h
        exact ⟨bmap_blocksOnly heq, rfl, le_rfl, hn⟩
      · rename_i d1 a ha heq
        by_cases hok : ok tot = true
        · rw [if_pos hok] at h
          obtain ⟨hb, hoff, htot', hn'⟩ := writeLoop_frame fuel (by omega) h
          exact ⟨(bmap_blocksOnly heq).trans hb, by omega, by omega, hn'⟩
        · rw [if_neg hok] at h
          cases h
          exact ⟨bmap_blocksOnly heq, rfl, le_rfl, hn⟩
    · rw [if_neg htot] at h
      cases h
      exact ⟨.refl d, rfl, le_rfl, hn⟩

/-- While the bytes left end below `MAXFILE` blocks, the loop of `writei` does not panic. -/
theorem writeLoop_ok {i n : ℕ} {ok : ℕ → Bool} :
    ∀ (fuel : ℕ) (d : Disk) (tot off : ℕ), off + (n - tot) ≤ maxFile * bsize →
      ∃ d' tot' off', writeLoop i n ok fuel d tot off = .ok (d', tot', off')
  | 0, d, tot, off, _ => ⟨d, tot, off, rfl⟩
  | fuel + 1, d, tot, off, hend => by
    unfold Fs.writeLoop
    by_cases htot : tot < n
    · rw [if_pos htot]
      have hbn : off / bsize < maxFile := by
        rw [Nat.div_lt_iff_lt_mul (by decide)]
        omega
      obtain ⟨d1, a, hb⟩ := bmap_ok (d := d) (i := i) hbn
      rw [hb]
      split
      · rename_i heq
        cases heq
      · exact ⟨_, _, _, rfl⟩
      · split
        · exact writeLoop_ok fuel _ _ _ (by omega)
        · exact ⟨_, _, _, rfl⟩
    · rw [if_neg htot]
      exact ⟨_, _, _, rfl⟩

/-- A write that fits in the rest of one block is written whole or not at all. -/
theorem writeLoop_whole {i n off : ℕ} {ok : ℕ → Bool} (hfit : n ≤ bsize - off % bsize) :
    ∀ (fuel : ℕ) {d d' : Disk} {tot' off' : ℕ},
      writeLoop i n ok fuel d 0 off = .ok (d', tot', off') → tot' = 0 ∨ tot' = n
  | 0, d, d', tot', off', h => by
    cases h
    exact .inl rfl
  | fuel + 1, d, d', tot', off', h => by
    unfold Fs.writeLoop at h
    by_cases htot : 0 < n
    · rw [if_pos htot] at h
      split at h
      · cases h
      · cases h
        exact .inl rfl
      · split at h
        · -- one chunk writes all `n` bytes
          rw [show min (n - 0) (bsize - off % bsize) = n by omega] at h
          dsimp only at h
          have := (writeLoop_frame fuel (by omega) h).2.2
          omega
        · cases h
          exact .inl rfl
    · rw [if_neg htot] at h
      cases h
      exact .inl rfl

/-- `writei` changes no directory's entries and no inode's type, of the sizes only inode `i`'s,
and that one to the offset reached; or it refuses the range and changes nothing. -/
theorem writei_frame {i off n : ℕ} {ok : ℕ → Bool} {r : ℤ}
    (h : Fs.writei d i off n ok = .ok (d', r)) :
    d'.dir = d.dir ∧ (∀ k, (d'.inode k).type = (d.inode k).type) ∧
      (∀ k, k ≠ i → (d'.inode k).size = (d.inode k).size) ∧
      ((r = -1 ∧ d' = d) ∨
        ∃ tot : ℕ, r = tot ∧ tot ≤ n ∧ (d'.inode i).size = max (d.inode i).size (off + tot)) := by
  unfold Fs.writei at h
  split_ifs at h with h1 h2
  · cases h
    exact ⟨rfl, fun _ => rfl, fun _ _ => rfl, .inl ⟨rfl, rfl⟩⟩
  · cases h
    exact ⟨rfl, fun _ => rfl, fun _ _ => rfl, .inl ⟨rfl, rfl⟩⟩
  · split at h
    · cases h
    · rename_i d1 tot off' heq
      cases h
      obtain ⟨hb, hoff, -, hn⟩ := writeLoop_frame n (Nat.zero_le n) heq
      refine ⟨hb.dir, fun k => ?_, fun k hk => ?_, .inr ⟨tot, rfl, hn, ?_⟩⟩
      · by_cases hk : k = i
        · subst hk
          simp [hb.type]
        · simp [Function.update_of_ne hk, hb.type]
      · simp [Function.update_of_ne hk, hb.size]
      · simp [hb.size]
        omega

/-- A write that fits in the rest of one block: `writei` refuses it, writes none of it, or
writes it whole. -/
theorem writei_whole {i off n : ℕ} {ok : ℕ → Bool} {r : ℤ} (hfit : n ≤ bsize - off % bsize)
    (h : Fs.writei d i off n ok = .ok (d', r)) : r = -1 ∨ r = 0 ∨ r = n := by
  unfold Fs.writei at h
  split_ifs at h
  · cases h
    exact .inl rfl
  · cases h
    exact .inl rfl
  · split at h
    · cases h
    · rename_i d1 tot off' heq
      cases h
      rcases writeLoop_whole hfit n heq with h0 | hn
      · exact .inr (.inl (by rw [h0]; rfl))
      · exact .inr (.inr (by rw [hn]))

/-- `writei` never reaches `bmap`'s "out of range" panic: it refuses a range that ends beyond
`MAXFILE` blocks before its loop. -/
theorem writei_ok (d : Disk) (i off n : ℕ) (ok : ℕ → Bool) :
    ∃ d' r, Fs.writei d i off n ok = .ok (d', r) := by
  unfold Fs.writei
  split_ifs with h1 h2
  · exact ⟨_, _, rfl⟩
  · exact ⟨_, _, rfl⟩
  · obtain ⟨d', tot', off', hl⟩ : ∃ d' tot' off', writeLoop i n ok n d 0 off = .ok (d', tot', off') :=
      writeLoop_ok n d 0 off (by omega)
    rw [hl]
    exact ⟨_, _, rfl⟩

end Writei

end Xv6.Fs
