import Xv6.Fs.Bitmap
import Xv6.Vm.Copy

/-!
# The contents of an inode (`bmap`, `readi`, `writei`)

The bytes of a file as `kernel/fs.c` reads and writes them: block `bn` of inode `ip` is
`ip->addrs[bn]` for `bn < NDIRECT`, and otherwise entry `bn - NDIRECT` of the indirect block
`ip->addrs[NDIRECT]`, read as little-endian `uint`s.  `bmap` allocates a missing block (and the
indirect block) with `balloc`; `readi` and `writei` copy between a user address space, through
`copyout` and `copyin` of `Xv6.Vm`, and the blocks as the buffer cache shows them (`Dev` of
`Xv6.Fs.Bitmap`), one block-sized chunk at a time.

* `Inode.blockOf`, `view`, `contents`: the block of each byte, and the inode's `size` bytes;
* `writei_spec`: the return values and the size `writei` leaves, and that it never panics;
* `writei_partial_copy`, `writei_fault_changes_contents`: when `copyin` faults in the middle of
  a chunk, the bytes it copied before the fault stay in the block's buffer, though `writei` does
  not count them: on a write inside the file they change its contents.
-/

namespace Xv6.Fs.Data

open Bitmap Vm

/-- The fields of an in-memory inode (`struct inode`) that `bmap`, `readi` and `writei` read and
write: the size and `addrs[0..NDIRECT]`. -/
structure Inode where
  size : ℕ
  addrs : ℕ → ℕ

/-- The user address space of the calling process: the page-table pages, the root of its page
table, and physical memory. -/
structure User where
  ptm : PteMem
  pagetable : ℕ
  mem : ℕ → UInt8

/-! ### Blocks of `uint`s -/

/-- `((uint*)bp->data)[i]`: four bytes, little-endian as RISC-V stores them. -/
def getUint (blk : ℕ → UInt8) (i : ℕ) : ℕ :=
  (blk (4 * i)).toNat + 2 ^ 8 * (blk (4 * i + 1)).toNat + 2 ^ 16 * (blk (4 * i + 2)).toNat +
    2 ^ 24 * (blk (4 * i + 3)).toNat

/-- The four bytes of `v` stored as a `uint`. -/
def uintBytes (v : ℕ) : List UInt8 :=
  [v.toUInt8, (v / 2 ^ 8).toUInt8, (v / 2 ^ 16).toUInt8, (v / 2 ^ 24).toUInt8]

/-- `((uint*)bp->data)[i] = v`. -/
def setUint (blk : ℕ → UInt8) (i v : ℕ) : ℕ → UInt8 :=
  Writes.apply blk (Writes.block (4 * i) (uintBytes v))

/-! ### `bmap` -/

/-- `if((addr = ip->addrs[j]) == 0){ addr = balloc(dev); if(addr == 0) return 0;
ip->addrs[j] = addr; }`: address `j` of the inode, allocated when it is `0`; `0` when the disk
is full.  `bmap` does this for a direct block and for the indirect block. -/
def ensureAddr (d : Dev) (sb : Superblock) (ip : Inode) (j : ℕ) : Dev × Inode × ℕ :=
  if ip.addrs j = 0 then
    match Bitmap.balloc d sb with
    | (d, 0) => (d, ip, 0)
    | (d, addr) => (d, { ip with addrs := Function.update ip.addrs j addr }, addr)
  else (d, ip, ip.addrs j)

/-- `bmap(ip, bn)`: the disk block of block `bn` of the inode, allocated if missing; `0` when
the disk is full. -/
def bmap (d : Dev) (sb : Superblock) (ip : Inode) (bn : ℕ) : Except String (Dev × Inode × ℕ) :=
  if bn < nDirect then .ok (ensureAddr d sb ip bn)
  else if bn - nDirect < nIndirect then
    match ensureAddr d sb ip nDirect with
    | (d, ip, 0) => .ok (d, ip, 0)
    | (d, ip, ind) =>
      let a := getUint (d.data ind) (bn - nDirect)
      if a = 0 then
        match Bitmap.balloc d sb with
        | (d, 0) => .ok (d, ip, 0)
        | (d, addr) =>
          .ok ((d.setData ind (setUint (d.data ind) (bn - nDirect) addr)).logWrite ind, ip, addr)
      else .ok (d, ip, a)
  else .error "bmap: out of range"

/-! ### `writei` and `readi` -/

/-- The loop of `writei(ip, 1, src, off, n)`: `tot` of the `n` bytes written, the file offset at
`off`.  A chunk whose `copyin` faults leaves the bytes copied before the fault in the buffer,
which is released without `log_write`. -/
def writeLoop (sb : Superblock) (u : User) (src n : ℕ) (d : Dev) (ip : Inode) (tot off : ℕ) :
    Except String (Dev × Inode × ℕ × ℕ) :=
  if tot < n then
    match bmap d sb ip (off / bsize) with
    | .error e => .error e
    | .ok (d, ip, addr) =>
      if addr = 0 then .ok (d, ip, tot, off)
      else
        let m := min (n - tot) (bsize - off % bsize)
        let c := copyin u.ptm u.pagetable u.mem ((src + tot) % 2 ^ 64) m
        let d := d.setBytes addr (off % bsize) c.2
        if c.1 = -1 then .ok (d, ip, tot, off)
        else writeLoop sb u src n (d.logWrite addr) ip (tot + m) (off + m)
  else .ok (d, ip, tot, off)
termination_by n - tot
decreasing_by
  have : 0 < bsize - off % bsize := Nat.sub_pos_of_lt (Nat.mod_lt _ (by decide))
  omega

/-- `writei(ip, 1, src, off, n)`: the bytes written, or `-1` for a range it refuses.  `off` and
`n` are `uint`s; `off + n < off` is the test for their sum wrapping. -/
def writei (d : Dev) (sb : Superblock) (ip : Inode) (u : User) (src off n : ℕ) :
    Except String (Dev × Inode × ℤ) :=
  if ip.size < off ∨ (off + n) % 2 ^ 32 < off then .ok (d, ip, -1)
  else if maxFile * bsize < off + n then .ok (d, ip, -1)
  else match writeLoop sb u src n d ip 0 off with
    | .error e => .error e
    | .ok (d, ip, tot, off) => .ok (d, if ip.size < off then { ip with size := off } else ip, tot)

/-- The loop of `readi(ip, 1, dst, off, n)`: `tot` of the `n` bytes copied out, the file offset
at `off`; `-1` when a `copyout` faults. -/
def readLoop (sb : Superblock) (u : User) (dst n : ℕ) (d : Dev) (ip : Inode) (mem : ℕ → UInt8)
    (tot off : ℕ) : Except String (Dev × Inode × (ℕ → UInt8) × ℤ) :=
  if tot < n then
    match bmap d sb ip (off / bsize) with
    | .error e => .error e
    | .ok (d, ip, addr) =>
      if addr = 0 then .ok (d, ip, mem, tot)
      else
        let m := min (n - tot) (bsize - off % bsize)
        let c := copyout u.ptm u.pagetable mem ((dst + tot) % 2 ^ 64)
          ((List.range m).map fun k => d.data addr (off % bsize + k)) m
        if c.1 = -1 then .ok (d, ip, c.2, -1)
        else readLoop sb u dst n d ip c.2 (tot + m) (off + m)
  else .ok (d, ip, mem, tot)
termination_by n - tot
decreasing_by
  have : 0 < bsize - off % bsize := Nat.sub_pos_of_lt (Nat.mod_lt _ (by decide))
  omega

/-- `readi(ip, 1, dst, off, n)`: the bytes copied out and the physical memory after it; `0` for a
range that starts beyond the end or wraps, and at most the bytes up to the end of the file. -/
def readi (d : Dev) (sb : Superblock) (ip : Inode) (u : User) (dst off n : ℕ) :
    Except String (Dev × Inode × (ℕ → UInt8) × ℤ) :=
  if ip.size < off ∨ (off + n) % 2 ^ 32 < off then .ok (d, ip, u.mem, 0)
  else readLoop sb u dst (if ip.size < off + n then ip.size - off else n) d ip u.mem 0 off

/-! ### The contents of an inode -/

/-- The disk block of block `bn` of the inode, as `bmap` finds it when it allocates nothing. -/
def Inode.blockOf (ip : Inode) (d : Dev) (bn : ℕ) : ℕ :=
  if bn < nDirect then ip.addrs bn else getUint (d.data (ip.addrs nDirect)) (bn - nDirect)

/-- Byte `o` of the inode, read through its blocks. -/
def view (d : Dev) (ip : Inode) (o : ℕ) : UInt8 := d.data (ip.blockOf d (o / bsize)) (o % bsize)

/-- The contents of the inode: its `size` bytes. -/
def contents (d : Dev) (ip : Inode) : List UInt8 := (List.range ip.size).map (view d ip)

/-! ### Sizes and return values -/

section Sizes

variable {d d' : Dev} {sb : Superblock} {ip ip' : Inode} {u : User}

theorem ensureAddr_size (d : Dev) (sb : Superblock) (ip : Inode) (j : ℕ) :
    (ensureAddr d sb ip j).2.1.size = ip.size := by
  unfold ensureAddr
  split_ifs
  · split <;> rfl
  · rfl

theorem bmap_size {bn : ℕ} {r : Dev × Inode × ℕ} (h : bmap d sb ip bn = .ok r) :
    r.2.1.size = ip.size := by
  unfold bmap at h
  split_ifs at h
  · cases h
    exact ensureAddr_size d sb ip bn
  · split at h
    · rename_i ip₁ heq
      cases h
      simpa [heq] using ensureAddr_size d sb ip nDirect
    · rename_i ip₁ ind _ heq
      have hs : ip₁.size = ip.size := by simpa [heq] using ensureAddr_size d sb ip nDirect
      dsimp only at h
      split at h
      · split at h <;> (cases h; exact hs)
      · cases h
        exact hs

/-- `bmap` of a block below `MAXFILE` never reaches its `out of range` panic. -/
theorem bmap_ok_of_lt {bn : ℕ} (hbn : bn < maxFile) : ∃ r, bmap d sb ip bn = .ok r := by
  unfold bmap
  split_ifs with h1 h2
  · exact ⟨_, rfl⟩
  · split
    · exact ⟨_, rfl⟩
    · dsimp only
      split
      · split <;> exact ⟨_, rfl⟩
      · exact ⟨_, rfl⟩
  · unfold maxFile at hbn
    omega

theorem writeLoop_spec {src n tot off tot' off' : ℕ}
    (h : writeLoop sb u src n d ip tot off = .ok (d', ip', tot', off')) (ht : tot ≤ n) :
    tot ≤ tot' ∧ tot' ≤ n ∧ off' + tot = off + tot' ∧ ip'.size = ip.size := by
  fun_induction writeLoop sb u src n d ip tot off with
  | case1 => cases h
  | case2 d ip tot off _ d₁ ip₁ hb =>
    cases h
    exact ⟨Nat.le_refl _, ht, rfl, bmap_size hb⟩
  | case3 d ip tot off _ d₁ ip₁ addr hb _ m c d₂ _ =>
    simp only [Except.ok.injEq, Prod.mk.injEq] at h
    obtain ⟨-, rfl, rfl, rfl⟩ := h
    exact ⟨Nat.le_refl _, ht, rfl, bmap_size hb⟩
  | case4 d ip tot off _ d₁ ip₁ addr hb _ m c d₂ _ ih =>
    have hm : tot + m ≤ n := by
      have : m = min (n - tot) (bsize - off % bsize) := rfl
      omega
    obtain ⟨h1, h2, h3, h4⟩ := ih h hm
    exact ⟨by omega, h2, by omega, h4.trans (bmap_size hb)⟩
  | case5 =>
    cases h
    exact ⟨Nat.le_refl _, ht, rfl, rfl⟩

theorem writeLoop_isOk {src n tot off : ℕ} (hb : off + (n - tot) ≤ maxFile * bsize) :
    ∃ r, writeLoop sb u src n d ip tot off = .ok r := by
  fun_induction writeLoop sb u src n d ip tot off with
  | case1 d ip tot off hlt e hb' =>
    have hbn : off / bsize < maxFile := by
      rw [Nat.div_lt_iff_lt_mul (by decide)]
      omega
    obtain ⟨r, hr⟩ : ∃ r, bmap d sb ip (off / bsize) = .ok r := bmap_ok_of_lt hbn
    rw [hr] at hb'
    cases hb'
  | case2 => exact ⟨_, rfl⟩
  | case3 => exact ⟨_, rfl⟩
  | case4 d ip tot off hlt d₁ ip₁ addr hb' _ m c d₂ _ ih =>
    have : m = min (n - tot) (bsize - off % bsize) := rfl
    exact ih (by omega)
  | case5 => exact ⟨_, rfl⟩

/-- `writei` refuses a range that starts beyond the end of the file, wraps, or ends beyond
`MAXFILE` blocks, and changes nothing; otherwise it writes `t ≤ n` bytes, returns `t`, and the
size grows to cover them.  It never reaches `bmap`'s panic. -/
theorem writei_spec (d : Dev) (sb : Superblock) (ip : Inode) (u : User) (src off n : ℕ) :
    ((ip.size < off ∨ (off + n) % 2 ^ 32 < off ∨ maxFile * bsize < off + n) ∧
        writei d sb ip u src off n = .ok (d, ip, -1)) ∨
      ∃ d' ip' t, t ≤ n ∧ writei d sb ip u src off n = .ok (d', ip', t) ∧
        ip'.size = max ip.size (off + t) := by
  unfold writei
  by_cases h1 : ip.size < off ∨ (off + n) % 2 ^ 32 < off
  · rw [if_pos h1]
    exact .inl ⟨h1.elim .inl (.inr ∘ .inl), rfl⟩
  · rw [if_neg h1]
    by_cases h2 : maxFile * bsize < off + n
    · rw [if_pos h2]
      exact .inl ⟨.inr (.inr h2), rfl⟩
    · rw [if_neg h2]
      obtain ⟨⟨d₁, ip₁, tot, off'⟩, hw⟩ : ∃ r, writeLoop sb u src n d ip 0 off = .ok r :=
        writeLoop_isOk (by omega)
      obtain ⟨-, htot, hoff, hsize⟩ := writeLoop_spec hw (Nat.zero_le n)
      rw [hw]
      refine .inr ⟨_, _, tot, htot, rfl, ?_⟩
      split_ifs with h3
      · show off' = _
        omega
      · rw [hsize]
        omega

end Sizes

/-! ### A fault in the middle of a chunk -/

/-- When the `copyin` of the first chunk faults after copying `bs`, `writei` returns `0`, yet
`bs` is left in the block's buffer. -/
theorem writei_partial_copy {d d₁ : Dev} {sb : Superblock} {ip ip₁ : Inode} {u : User}
    {src off n addr : ℕ} {bs : List UInt8} (hoff : off ≤ ip.size) (hwrap : off + n < 2 ^ 32)
    (hn : off + n ≤ maxFile * bsize) (hpos : 0 < n)
    (hb : bmap d sb ip (off / bsize) = .ok (d₁, ip₁, addr)) (haddr : addr ≠ 0)
    (hc : copyin u.ptm u.pagetable u.mem (src % 2 ^ 64) (min n (bsize - off % bsize)) = (-1, bs)) :
    writei d sb ip u src off n = .ok (d₁.setBytes addr (off % bsize) bs, ip₁, 0) := by
  have hsize : ip₁.size = ip.size := bmap_size hb
  have hnowrap : ¬ (ip.size < off ∨ (off + n) % 2 ^ 32 < off) := by
    rw [Nat.mod_eq_of_lt hwrap]
    omega
  rw [writei, if_neg hnowrap, if_neg (Nat.not_lt.2 hn), writeLoop, if_pos hpos, hb]
  simp only [haddr, if_false, Nat.sub_zero, Nat.add_zero, hc, if_true]
  rw [if_neg (by omega), Nat.cast_zero]

/-- The failing input: a file of one block, block `50`, of zeroes, written at offset `0` from user
address `4086` by a process whose page `0` is its text page (`textPt` of `Xv6.Vm`, memory all
`0x41`) and whose page `1` is not mapped. -/
def faultDisk : Dev := ⟨fun _ _ => 0, []⟩

/-- The inode of the failing input: one block, block `50`. -/
def faultInode : Inode := ⟨bsize, fun j => if j = 0 then 50 else 0⟩

/-- The writer of the failing input. -/
def faultUser : User := ⟨textPt, 0x1000, fun _ => 0x41⟩

/-- `writei` of 20 bytes at offset `0` from user address `4086`: `copyin` copies the 10 bytes left
in page `0` and faults on page `1`.  `writei` returns `0`, but the file's first 10 bytes have
changed from `0` to `0x41`. -/
theorem writei_fault_changes_contents :
    writei faultDisk mkfsSb faultInode faultUser 4086 0 20 =
        .ok (faultDisk.setBytes 50 0 (List.replicate 10 0x41), faultInode, 0) ∧
      contents faultDisk faultInode = List.replicate bsize 0 ∧
      (contents (faultDisk.setBytes 50 0 (List.replicate 10 0x41)) faultInode).take 10 =
        List.replicate 10 0x41 := by
  have hw0 : walkaddr textPt 0x1000 0 = 0x80000000 := by decide
  have hw1 : walkaddr textPt 0x1000 4096 = 0 := by decide
  -- page `0` gives its last 10 bytes, page `1` faults
  have hc : copyin faultUser.ptm faultUser.pagetable faultUser.mem (4086 % 2 ^ 64)
      (min 20 (bsize - 0 % bsize)) = (-1, List.replicate 10 0x41) := by
    rw [show (4086 : ℕ) % 2 ^ 64 = 4086 by norm_num, show min 20 (bsize - 0 % bsize) = 20 by decide,
      copyin, if_neg (by decide), show pgrounddown 4086 = 0 from rfl]
    simp only [faultUser, hw0]
    have hn : min (pgSize - (4086 - 0)) 20 = 10 := by decide
    have hnext : (0 + pgSize) % 2 ^ 64 = 4096 := by decide
    rw [if_neg (by decide), hn, hnext, copyin, if_neg (by decide),
      show pgrounddown 4096 = 4096 from rfl, hw1, if_pos rfl]
    simp
  have hb : bmap faultDisk mkfsSb faultInode (0 / bsize) = .ok (faultDisk, faultInode, 50) := by
    rw [Nat.zero_div, bmap, if_pos (by decide)]
    rfl
  refine ⟨writei_partial_copy (Nat.zero_le _) (by decide) (by decide) (by decide) hb (by decide) hc,
    ?_, ?_⟩
  · rw [contents, show faultInode.size = bsize from rfl,
      show view faultDisk faultInode = fun _ => 0 from rfl, List.map_const', List.length_range]
  · have hview : ∀ o ∈ List.range 10,
        view (faultDisk.setBytes 50 0 (List.replicate 10 0x41)) faultInode o = 0x41 := by
      intro o ho
      have ho : o < 10 := List.mem_range.1 ho
      have hdiv : o / bsize = 0 := Nat.div_eq_of_lt (by unfold bsize; omega)
      have hmod : o % bsize = o := Nat.mod_eq_of_lt (by unfold bsize; omega)
      rw [view, hdiv, hmod, Inode.blockOf, if_pos (by decide)]
      show Writes.apply (fun _ => 0) (Writes.block 0 (List.replicate 10 0x41)) o = 0x41
      rw [show o = 0 + o by rw [Nat.zero_add], Writes.apply_block_add _ 0 _ o (by simpa using ho),
        List.getElem_replicate]
    rw [contents, ← List.map_take, List.take_range, show min 10 faultInode.size = 10 from rfl,
      List.map_congr_left hview, List.map_const', List.length_range]

end Xv6.Fs.Data
