import Xv6.Fs.Disk
import Mathlib.Data.Nat.Bitwise
import Xv6.Lib.Writes

/-!
# The free bitmap byte by byte (`balloc`, `bfree`)

`Xv6.Fs.Disk` keeps the free bitmap as one flag per block, `Disk.used`.  Here it is as
`kernel/fs.c` reads and writes it: the bit of block `b` is bit `b % 8` of byte `(b % BPB) / 8`
of block `BBLOCK(b, sb)`, and `balloc` scans the bitmap blocks one after another, each up to
`BPB` bits and up to `sb.size`.

* `Dev`: the blocks as the buffer cache shows them and the blocks `log_write` has recorded;
  `balloc` (`ballocLoop` over the bitmap blocks, `ballocBit` over the bits of one) and `bfree`
  as the source computes them;
* `Dev.marked`, the bit of a block; `Dev.setBit` and `Dev.clearBit` change that bit and no
  other (`testBit_setBit`, `testBit_clearBit`);
* `ballocLoop_spec`: `balloc` takes the least block below `sb.size` whose bit is clear, sets its
  bit and zeroes it, or returns `0` with nothing changed when there is none.  That least block
  may be block `0` (`balloc_of_clear_zero`), and then `0` names a block taken;
* `balloc_refines`, `bfree_refines`: through `mkfs`'s superblock, these are the `balloc` and
  `bfree` of `Xv6.Fs.Disk`.

`b` and `bi` are C `int`s; for `sb.size ≤ 2 ^ 31 - BPB` none of their values overflows, and
the model's numbers are unbounded.
-/

namespace Xv6.Fs.Bitmap

/-- The fields of the superblock that `balloc` and `bfree` read. -/
structure Superblock where
  size : ℕ
  bmapstart : ℕ

/-- `BBLOCK(b, sb)`: the bitmap block that holds the bit of block `b`. -/
def bblock (b : ℕ) (sb : Superblock) : ℕ := b / bpb + sb.bmapstart

/-- `1 << (bi % 8)`, the mask of bit `bi` within its byte. -/
def mask (bi : ℕ) : UInt8 := 1 <<< (bi % 8).toUInt8

/-- The blocks as the buffer cache shows them, byte by byte, and the blocks `log_write` has
recorded in the running transaction, in order. -/
structure Dev where
  data : ℕ → ℕ → UInt8
  logged : List ℕ

namespace Dev

/-- `log_write(bp)` for block `blk`: recorded once (log absorption). -/
def logWrite (d : Dev) (blk : ℕ) : Dev :=
  { d with logged := if blk ∈ d.logged then d.logged else d.logged ++ [blk] }

/-- `bp->data[i] = x` on the buffer of block `blk`. -/
def setByte (d : Dev) (blk i : ℕ) (x : UInt8) : Dev :=
  { d with data := Function.update d.data blk (Function.update (d.data blk) i x) }

/-- Block `blk`'s buffer replaced by `f`. -/
def setData (d : Dev) (blk : ℕ) (f : ℕ → UInt8) : Dev :=
  { d with data := Function.update d.data blk f }

/-- `memmove(bp->data + off, bs, n)` on the buffer of block `blk`. -/
def setBytes (d : Dev) (blk off : ℕ) (bs : List UInt8) : Dev :=
  d.setData blk (Writes.apply (d.data blk) (Writes.block off bs))

/-- `bzero`: block `bno` zeroed through the log. -/
def bzero (d : Dev) (bno : ℕ) : Dev :=
  ({ d with data := Function.update d.data bno fun _ => 0 } : Dev).logWrite bno

end Dev

/-- The inner loop of `balloc` on the bitmap block `buf` of blocks `b, b + 1, …`, from bit `bi`:
the first clear bit below `BPB` whose block is below `sb.size`. -/
def ballocBit (buf : ℕ → UInt8) (b size bi : ℕ) : Option ℕ :=
  if bi < bpb ∧ b + bi < size then
    if buf (bi / 8) &&& mask bi = 0 then some bi else ballocBit buf b size (bi + 1)
  else none
termination_by bpb - bi

/-- The outer loop of `balloc`, from the bitmap block of block `b`: the first clear bit is set
and its block written through the log and released, then the block it stands for is zeroed. -/
def ballocLoop (d : Dev) (sb : Superblock) (b : ℕ) : Dev × ℕ :=
  if b < sb.size then
    let bp := bblock b sb
    match ballocBit (d.data bp) b sb.size 0 with
    | some bi =>
      let d := (d.setByte bp (bi / 8) (d.data bp (bi / 8) ||| mask bi)).logWrite bp
      (d.bzero (b + bi), b + bi)
    | none => ballocLoop d sb (b + bpb)
  else (d, 0)
termination_by sb.size - b
decreasing_by unfold bpb bsize; omega

/-- `balloc`: a zeroed block, or `0` when out of blocks ("balloc: out of blocks"). -/
def balloc (d : Dev) (sb : Superblock) : Dev × ℕ := ballocLoop d sb 0

/-- `bfree`: the bit of block `b` cleared; a panic when it is clear. -/
def bfree (d : Dev) (sb : Superblock) (b : ℕ) : Except String Dev :=
  let bp := bblock b sb
  let bi := b % bpb
  let m := mask bi
  if d.data bp (bi / 8) &&& m = 0 then .error "freeing free block"
  else .ok ((d.setByte bp (bi / 8) (d.data bp (bi / 8) &&& ~~~m)).logWrite bp)

/-! ### Bits of a byte -/

section Bits

theorem two_pow_lt_256 (i : ℕ) : 2 ^ (i % 8) < 256 :=
  calc 2 ^ (i % 8) < 2 ^ 8 := Nat.pow_lt_pow_right (by norm_num) (Nat.mod_lt _ (by norm_num))
    _ = 256 := rfl

theorem toNat_mask (i : ℕ) : (mask i).toNat = 2 ^ (i % 8) := by
  have hi : i % 8 < 8 := Nat.mod_lt _ (by norm_num)
  simp only [mask, UInt8.toNat_shiftLeft, Nat.toUInt8_eq, UInt8.toNat_ofNat', UInt8.reduceToNat,
    Nat.one_shiftLeft]
  rw [Nat.mod_eq_of_lt (Nat.lt_trans hi (by norm_num)), Nat.mod_eq_of_lt hi]
  exact Nat.mod_eq_of_lt (two_pow_lt_256 i)

theorem and_mask_eq_zero (x : UInt8) (i : ℕ) :
    x &&& mask i = 0 ↔ x.toNat.testBit (i % 8) = false := by
  rw [← UInt8.toNat_inj, UInt8.toNat_and, toNat_mask, Nat.and_two_pow]
  cases x.toNat.testBit (i % 8) <;> simp

/-- A byte has no bit from `8` on. -/
theorem testBit_toNat_of_le (x : UInt8) {j : ℕ} (hj : 8 ≤ j) : x.toNat.testBit j = false :=
  Nat.testBit_lt_two_pow (Nat.lt_of_lt_of_le x.toNat_lt (Nat.pow_le_pow_right (by norm_num) hj))

theorem testBit_or_mask (x : UInt8) (i j : ℕ) :
    (x ||| mask i).toNat.testBit j = (x.toNat.testBit j || decide (j = i % 8)) := by
  rw [UInt8.toNat_or, toNat_mask, Nat.testBit_or, Nat.testBit_two_pow]
  simp only [eq_comm]

theorem testBit_and_not_mask (x : UInt8) (i j : ℕ) :
    (x &&& ~~~mask i).toNat.testBit j = (x.toNat.testBit j && !decide (j = i % 8)) := by
  have hp := two_pow_lt_256 i
  have hsub : UInt8.size - 1 - 2 ^ (i % 8) = 2 ^ 8 - (2 ^ (i % 8) + 1) := by
    simp only [UInt8.size]
    omega
  rw [UInt8.toNat_and, UInt8.toNat_not, toNat_mask, Nat.testBit_and, hsub,
    Nat.testBit_two_pow_sub_succ hp, Nat.testBit_two_pow]
  by_cases hj : j < 8
  · simp [hj, eq_comm]
  · simp [hj, testBit_toNat_of_le x (Nat.le_of_not_lt hj)]

end Bits

/-! ### The bit of a block -/

theorem mod_bpb_mod_eight (b : ℕ) : b % bpb % 8 = b % 8 :=
  Nat.mod_mod_of_dvd b (by decide)

theorem mask_mod_bpb (b : ℕ) : mask (b % bpb) = mask b := by
  rw [mask, mod_bpb_mod_eight, mask]

/-- Block, byte and bit name one block: the position of a bit is one-to-one. -/
theorem eq_of_pos {sb : Superblock} {b b' : ℕ} (h1 : bblock b sb = bblock b' sb)
    (h2 : b % bpb / 8 = b' % bpb / 8) (h3 : b % 8 = b' % 8) : b = b' := by
  unfold bblock bpb bsize at *
  omega

/-- Within the bitmap block of `b`, a multiple of `BPB`, bit `bi` is the bit of `b + bi`. -/
theorem bblock_add {sb : Superblock} {b bi : ℕ} (hb : b % bpb = 0) (hbi : bi < bpb) :
    bblock (b + bi) sb = bblock b sb ∧ (b + bi) % bpb = bi := by
  unfold bblock bpb bsize at *
  omega

namespace Dev

variable (d : Dev) (sb : Superblock)

/-- Block `b` is marked in use. -/
def marked (b : ℕ) : Bool := d.data (bblock b sb) (b % bpb / 8) &&& mask (b % bpb) != 0

/-- The bit of block `b` set and its bitmap block written through the log. -/
def setBit (b : ℕ) : Dev :=
  (d.setByte (bblock b sb) (b % bpb / 8)
    (d.data (bblock b sb) (b % bpb / 8) ||| mask (b % bpb))).logWrite (bblock b sb)

/-- The bit of block `b` cleared and its bitmap block written through the log. -/
def clearBit (b : ℕ) : Dev :=
  (d.setByte (bblock b sb) (b % bpb / 8)
    (d.data (bblock b sb) (b % bpb / 8) &&& ~~~mask (b % bpb))).logWrite (bblock b sb)

@[simp] theorem logWrite_data (blk : ℕ) : (d.logWrite blk).data = d.data := rfl

theorem setByte_data (blk i : ℕ) (x : UInt8) (blk' i' : ℕ) :
    (d.setByte blk i x).data blk' i' = if blk' = blk ∧ i' = i then x else d.data blk' i' := by
  by_cases h1 : blk' = blk
  · subst h1
    by_cases h2 : i' = i
    · simp [setByte, h2]
    · simp [setByte, h2]
  · simp [setByte, h1]

theorem marked_eq (b : ℕ) :
    d.marked sb b = (d.data (bblock b sb) (b % bpb / 8)).toNat.testBit (b % 8) := by
  rw [Bool.eq_iff_iff, marked, bne_iff_ne, ne_eq, and_mask_eq_zero, mod_bpb_mod_eight,
    Bool.not_eq_false]

/-- `setBit` sets bit `b % 8` of byte `(b % BPB) / 8` of block `BBLOCK(b, sb)`, and no other
bit of any byte of any block. -/
theorem testBit_setBit (b blk i j : ℕ) :
    ((d.setBit sb b).data blk i).toNat.testBit j =
      ((d.data blk i).toNat.testBit j ||
        decide (blk = bblock b sb ∧ i = b % bpb / 8 ∧ j = b % 8)) := by
  rw [setBit, logWrite_data, setByte_data]
  by_cases h : blk = bblock b sb ∧ i = b % bpb / 8
  · rw [if_pos h, h.1, h.2, testBit_or_mask, mod_bpb_mod_eight]
    simp
  · have h' : ¬ (blk = bblock b sb ∧ i = b % bpb / 8 ∧ j = b % 8) :=
      fun ⟨h1, h2, _⟩ => h ⟨h1, h2⟩
    rw [if_neg h]
    simp [h']

/-- `clearBit` clears bit `b % 8` of byte `(b % BPB) / 8` of block `BBLOCK(b, sb)`, and no other
bit of any byte of any block. -/
theorem testBit_clearBit (b blk i j : ℕ) :
    ((d.clearBit sb b).data blk i).toNat.testBit j =
      ((d.data blk i).toNat.testBit j &&
        !decide (blk = bblock b sb ∧ i = b % bpb / 8 ∧ j = b % 8)) := by
  rw [clearBit, logWrite_data, setByte_data]
  by_cases h : blk = bblock b sb ∧ i = b % bpb / 8
  · rw [if_pos h, h.1, h.2, testBit_and_not_mask, mod_bpb_mod_eight]
    simp
  · have h' : ¬ (blk = bblock b sb ∧ i = b % bpb / 8 ∧ j = b % 8) :=
      fun ⟨h1, h2, _⟩ => h ⟨h1, h2⟩
    rw [if_neg h]
    simp [h']

theorem pos_eq_iff {b b' : ℕ} :
    (bblock b' sb = bblock b sb ∧ b' % bpb / 8 = b % bpb / 8 ∧ b' % 8 = b % 8) ↔ b' = b :=
  ⟨fun ⟨h1, h2, h3⟩ => eq_of_pos h1 h2 h3, fun h => h ▸ ⟨rfl, rfl, rfl⟩⟩

@[simp] theorem marked_setBit (b b' : ℕ) :
    (d.setBit sb b).marked sb b' = (d.marked sb b' || decide (b' = b)) := by
  rw [marked_eq, marked_eq, testBit_setBit, decide_eq_decide.2 (pos_eq_iff sb)]

@[simp] theorem marked_clearBit (b b' : ℕ) :
    (d.clearBit sb b).marked sb b' = (d.marked sb b' && !decide (b' = b)) := by
  rw [marked_eq, marked_eq, testBit_clearBit, decide_eq_decide.2 (pos_eq_iff sb)]

/-- Zeroing block `n` clears the bits that block `n` holds. -/
@[simp] theorem marked_bzero (n b : ℕ) :
    (d.bzero n).marked sb b = (d.marked sb b && decide (bblock b sb ≠ n)) := by
  by_cases h : bblock b sb = n <;> simp [marked, bzero, h]

/-- In the bitmap block of `b`, a multiple of `BPB`, bit `j` is the bit of block `b + j`. -/
theorem marked_add {b j : ℕ} (hb : b % bpb = 0) (hj : j < bpb) :
    d.marked sb (b + j) = (d.data (bblock b sb) (j / 8) &&& mask j != 0) := by
  obtain ⟨h1, h2⟩ := @bblock_add sb _ _ hb hj
  rw [marked, h1, h2]

theorem setBit_add {b j : ℕ} (hb : b % bpb = 0) (hj : j < bpb) :
    d.setBit sb (b + j) =
      (d.setByte (bblock b sb) (j / 8) (d.data (bblock b sb) (j / 8) ||| mask j)).logWrite
        (bblock b sb) := by
  obtain ⟨h1, h2⟩ := @bblock_add sb _ _ hb hj
  rw [setBit, h1, h2]

end Dev

/-! ### `balloc` and `bfree` -/

theorem ballocBit_some {buf : ℕ → UInt8} {b size bi r : ℕ} (h : ballocBit buf b size bi = some r) :
    bi ≤ r ∧ r < bpb ∧ b + r < size ∧ buf (r / 8) &&& mask r = 0 ∧
      ∀ j, bi ≤ j → j < r → buf (j / 8) &&& mask j ≠ 0 := by
  fun_induction ballocBit buf b size bi with
  | case1 bi hg hz =>
    cases h
    exact ⟨Nat.le_refl _, hg.1, hg.2, hz, fun j h1 h2 => absurd h2 (by omega)⟩
  | case2 bi hg hz ih =>
    obtain ⟨h1, h2, h3, h4, h5⟩ := ih h
    refine ⟨by omega, h2, h3, h4, fun j hj1 hj2 => ?_⟩
    rcases Nat.eq_or_lt_of_le hj1 with rfl | hj1
    · exact hz
    · exact h5 j hj1 hj2
  | case3 bi hg => cases h

theorem ballocBit_none {buf : ℕ → UInt8} {b size bi : ℕ} (h : ballocBit buf b size bi = none) :
    ∀ j, bi ≤ j → j < bpb → b + j < size → buf (j / 8) &&& mask j ≠ 0 := by
  fun_induction ballocBit buf b size bi with
  | case1 bi hg hz => cases h
  | case2 bi hg hz ih =>
    intro j hj1 hj2 hj3
    rcases Nat.eq_or_lt_of_le hj1 with rfl | hj1
    · exact hz
    · exact ih h j hj1 hj2 hj3
  | case3 bi hg =>
    intro j hj1 hj2 hj3
    exact absurd ⟨by omega, by omega⟩ hg

/-- The outer loop from a multiple `b` of `BPB`, every block below `b` marked: it takes the
least clear block, or returns `0` when there is none. -/
theorem ballocLoop_spec (d : Dev) (sb : Superblock) (b : ℕ) (hb : b % bpb = 0)
    (hm : ∀ b' < b, b' < sb.size → d.marked sb b') :
    ((∀ b' < sb.size, d.marked sb b') ∧ ballocLoop d sb b = (d, 0)) ∨
      ∃ r < sb.size, d.marked sb r = false ∧ (∀ b' < r, d.marked sb b') ∧
        ballocLoop d sb b = ((d.setBit sb r).bzero r, r) := by
  fun_induction ballocLoop d sb b with
  | case1 b hlt bp bi hbit d' =>
    obtain ⟨-, hbi, hsz, hz, hset⟩ := ballocBit_some hbit
    have hz : d.data (bblock b sb) (bi / 8) &&& mask bi = 0 := hz
    refine .inr ⟨b + bi, hsz, ?_, fun b' hb' => ?_, ?_⟩
    · rw [d.marked_add sb hb hbi, hz]
      rfl
    · by_cases hlt' : b' < b
      · exact hm b' hlt' (by omega)
      · obtain ⟨j, rfl⟩ : ∃ j, b' = b + j := ⟨b' - b, by omega⟩
        rw [d.marked_add sb hb (by omega)]
        exact bne_iff_ne.2 (hset j (Nat.zero_le _) (by omega))
    · rw [d.setBit_add sb hb hbi]
  | case2 b hlt bp hnone ih =>
    refine ih (by rw [Nat.add_mod_right, hb]) fun b' hb' hsz => ?_
    by_cases hlt' : b' < b
    · exact hm b' hlt' hsz
    · obtain ⟨j, rfl⟩ : ∃ j, b' = b + j := ⟨b' - b, by omega⟩
      rw [d.marked_add sb hb (by omega)]
      exact bne_iff_ne.2 (ballocBit_none hnone j (Nat.zero_le _) (by omega) hsz)
  | case3 b hge =>
    exact .inl ⟨fun b' hb' => hm b' (by omega) hb', rfl⟩

theorem balloc_spec (d : Dev) (sb : Superblock) :
    ((∀ b < sb.size, d.marked sb b) ∧ balloc d sb = (d, 0)) ∨
      ∃ b < sb.size, d.marked sb b = false ∧ (∀ b' < b, d.marked sb b') ∧
        balloc d sb = ((d.setBit sb b).bzero b, b) :=
  ballocLoop_spec d sb 0 (Nat.zero_mod _) fun _ h => absurd h (Nat.not_lt_zero _)

/-- When block `0` is clear, `balloc` takes it and returns `0`, whatever else is free. -/
theorem balloc_of_clear_zero {d : Dev} {sb : Superblock} (h0 : d.marked sb 0 = false)
    (hs : 0 < sb.size) : balloc d sb = ((d.setBit sb 0).bzero 0, 0) := by
  rcases balloc_spec d sb with ⟨hall, -⟩ | ⟨r, -, -, hbelow, heq⟩
  · rw [hall 0 hs] at h0
    cases h0
  · have hr : r = 0 := by
      by_contra hne
      rw [hbelow 0 (Nat.pos_of_ne_zero hne)] at h0
      cases h0
    rw [heq, hr]

theorem bfree_eq (d : Dev) (sb : Superblock) (b : ℕ) :
    bfree d sb b =
      if d.marked sb b then .ok (d.clearBit sb b) else .error "freeing free block" := by
  dsimp only [bfree, Dev.marked]
  by_cases h : d.data (bblock b sb) (b % bpb / 8) &&& mask (b % bpb) = 0
  · simp [h]
  · simp [h, Dev.clearBit]

/-! ### What taking a block changes -/

/-- The bitmap marks its own blocks below `sb.size` in use, as `mkfs` leaves it. -/
def BitmapMarked (d : Dev) (sb : Superblock) : Prop :=
  ∀ b < sb.size, bblock b sb < sb.size → d.marked sb (bblock b sb) = true

theorem Dev.setBit_data {d : Dev} {sb : Superblock} {b blk : ℕ} (h : blk ≠ bblock b sb) :
    (d.setBit sb b).data blk = d.data blk := by
  simp [Dev.setBit, Dev.setByte, h]

theorem Dev.bzero_data (d : Dev) (n blk : ℕ) :
    (d.bzero n).data blk = if blk = n then fun _ => 0 else d.data blk := by
  by_cases h : blk = n <;> simp [Dev.bzero, h]

theorem Dev.setData_data (d : Dev) (blk : ℕ) (f : ℕ → UInt8) (blk' : ℕ) :
    (d.setData blk f).data blk' = if blk' = blk then f else d.data blk' := by
  by_cases h : blk' = blk <;> simp [Dev.setData, h]

/-- Writing a block that holds no bit of `b` leaves the bit of `b`. -/
theorem Dev.marked_setData (d : Dev) (sb : Superblock) {blk b : ℕ} (f : ℕ → UInt8)
    (h : bblock b sb ≠ blk) : (d.setData blk f).marked sb b = d.marked sb b := by
  simp only [Dev.marked, Dev.setData_data, if_neg h]

section Take

variable {d : Dev} {sb : Superblock} {r : ℕ}

/-- Taking `r` changes only block `r`, zeroed, and the bitmap blocks. -/
theorem take_data (hr : r < sb.size) {blk : ℕ} (hne : blk ≠ r)
    (hnb : ∀ x < sb.size, bblock x sb ≠ blk) : ((d.setBit sb r).bzero r).data blk = d.data blk := by
  rw [Dev.bzero_data, if_neg hne, Dev.setBit_data (Ne.symm (hnb r hr))]

variable (hbm : BitmapMarked d sb) (hr : r < sb.size) (hclear : d.marked sb r = false)
include hbm hr hclear

/-- A clear block below `sb.size` holds no bit of a block below `sb.size`: such a bitmap block is
marked. -/
theorem bblock_ne_of_clear {b : ℕ} (hb : b < sb.size) : bblock b sb ≠ r := by
  intro h
  have := hbm b hb (h ▸ hr)
  rw [h, hclear] at this
  cases this

/-- Below `sb.size`, taking `r` marks `r` and no other block. -/
theorem take_marked {b : ℕ} (hb : b < sb.size) :
    ((d.setBit sb r).bzero r).marked sb b = (d.marked sb b || decide (b = r)) := by
  rw [Dev.marked_bzero, Dev.marked_setBit, decide_eq_true (bblock_ne_of_clear hbm hr hclear hb),
    Bool.and_true]

theorem take_bitmapMarked : BitmapMarked ((d.setBit sb r).bzero r) sb := by
  intro b hb hbb
  rw [take_marked hbm hr hclear hbb, hbm b hb hbb, Bool.true_or]

end Take

/-- `balloc` and `bfree`: the least clear block below `sb.size` taken, its bit set and the block
zeroed, or `0` with nothing changed when every block is marked; `bfree` clears one bit or
panics.  Setting and clearing touch that one bit of that one byte. -/
theorem balloc_bfree_bits (d : Dev) (sb : Superblock) :
    (((∀ b < sb.size, d.marked sb b) ∧ balloc d sb = (d, 0)) ∨
      ∃ b < sb.size, d.marked sb b = false ∧ (∀ b' < b, d.marked sb b') ∧
        balloc d sb = ((d.setBit sb b).bzero b, b)) ∧
    (∀ b blk i j, ((d.setBit sb b).data blk i).toNat.testBit j =
      ((d.data blk i).toNat.testBit j ||
        decide (blk = bblock b sb ∧ i = b % bpb / 8 ∧ j = b % 8))) ∧
    (∀ b, bfree d sb b =
      if d.marked sb b then .ok (d.clearBit sb b) else .error "freeing free block") ∧
    (∀ b blk i j, ((d.clearBit sb b).data blk i).toNat.testBit j =
      ((d.data blk i).toNat.testBit j &&
        !decide (blk = bblock b sb ∧ i = b % bpb / 8 ∧ j = b % 8))) :=
  ⟨balloc_spec d sb, d.testBit_setBit sb, bfree_eq d sb, d.testBit_clearBit sb⟩

/-! ### The bitmap of `Xv6.Fs.Disk` -/

/-- The superblock `mkfs` writes: `FSSIZE` blocks, and the bitmap after the boot block, the
superblock, the log and the inode blocks. -/
def mkfsSb : Superblock := ⟨fsSize, 2 + nlog + nInodeBlocks⟩

/-- With every bit clear, `balloc` takes block `0` and returns `0`, as when out of blocks,
though block `1` is still free. -/
theorem balloc_zero_with_free_block :
    (balloc ⟨fun _ _ => 0, []⟩ mkfsSb).2 = 0 ∧
      (balloc ⟨fun _ _ => 0, []⟩ mkfsSb).1.marked mkfsSb 1 = false := by
  rw [balloc_of_clear_zero (by decide) (by decide)]
  exact ⟨rfl, by decide⟩

/-- Every bitmap block of `mkfs`'s superblock is a metadata block. -/
theorem bblock_lt_nMeta {b : ℕ} (hb : b < fsSize) : bblock b mkfsSb < nMeta := by
  simp only [bblock, mkfsSb, nMeta, nBitmap, bpb, bsize, fsSize, nlog, logSize, maxOpBlocks,
    nInodeBlocks, nInodes, ipb] at hb ⊢
  omega

/-- The bits of `d` read through `mkfs`'s superblock are `D`'s bitmap below `FSSIZE`. -/
def Agrees (d : Dev) (D : Disk) : Prop := ∀ b < fsSize, d.marked mkfsSb b = D.used b

section Refines

variable {d : Dev} {D : Disk}

theorem firstFree_of_agrees (h : Agrees d D) {r : ℕ} (hr : r < fsSize)
    (hfree : d.marked mkfsSb r = false) (hbelow : ∀ b < r, d.marked mkfsSb b) :
    D.firstFree = some r := by
  rw [Disk.firstFree, List.find?_range_eq_some]
  refine ⟨by rw [← h r hr, hfree]; rfl, List.mem_range.2 hr, fun j hj => ?_⟩
  rw [← h j (by omega), hbelow j hj]
  rfl

/-- `balloc` refines the `balloc` of `Xv6.Fs.Disk`: the same block, and bitmaps that agree
after it.  The block taken is free, so none of the metadata blocks, which hold the bitmap. -/
theorem balloc_refines (hD : BlockInv D) (h : Agrees d D) :
    (balloc d mkfsSb).2 = (Fs.balloc D).2 ∧ Agrees (balloc d mkfsSb).1 (Fs.balloc D).1 := by
  rcases balloc_spec d mkfsSb with ⟨hall, heq⟩ | ⟨r, hr, hfree, hbelow, heq⟩
  · have hnone : D.firstFree = none := by
      rw [Disk.firstFree, List.find?_range_eq_none]
      intro i hi
      rw [← h i hi, hall i hi]
      rfl
    rw [heq]
    unfold Fs.balloc
    rw [hnone]
    exact ⟨rfl, h⟩
  · have hr' : r < fsSize := hr
    have hmeta : nMeta ≤ r := by
      by_contra hlt
      rw [h r hr', hD.reserved r (by omega)] at hfree
      cases hfree
    rw [heq]
    unfold Fs.balloc
    rw [firstFree_of_agrees h hr' hfree hbelow]
    refine ⟨rfl, fun b hb => ?_⟩
    have hne : bblock b mkfsSb ≠ r := by
      have := bblock_lt_nMeta hb
      omega
    rw [Dev.marked_bzero, Dev.marked_setBit, Disk.take_used, h b hb]
    by_cases hbr : b = r
    · subst hbr
      simp [hne]
    · simp [hne, hbr]

/-- `bfree` refines the `bfree` of `Xv6.Fs.Disk`: both panic, or both clear the bit and the
bitmaps agree after. -/
theorem bfree_refines (h : Agrees d D) {b : ℕ} (hb : b < fsSize) :
    (∃ d' D', bfree d mkfsSb b = .ok d' ∧ Fs.bfree D b = .ok D' ∧ Agrees d' D') ∨
      (bfree d mkfsSb b = .error "freeing free block" ∧
        Fs.bfree D b = .error "freeing free block") := by
  rw [bfree_eq]
  cases hm : d.marked mkfsSb b
  · have hD : D.used b = false := by rw [← h b hb, hm]
    right
    refine ⟨rfl, ?_⟩
    unfold Fs.bfree
    rw [hD]
    rfl
  · have hD : D.used b = true := by rw [← h b hb, hm]
    refine .inl ⟨_, _, rfl, bfree_ok hD, fun b' hb' => ?_⟩
    rw [Dev.marked_clearBit, h b' hb']
    by_cases hbb : b' = b
    · subst hbb
      simp
    · simp [hbb]

end Refines

end Xv6.Fs.Bitmap
