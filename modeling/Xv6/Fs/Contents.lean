import Xv6.Fs.Data
import Xv6.Vm.Copyinstr

/-!
# What `writei` leaves in a file

`Xv6.Fs.Data` models `bmap` and `writei` as `kernel/fs.c` computes them.  Here they are proved
against the bytes of the file (`view`, `contents`) on a device where the inode's blocks are in
order (`Good`): every block the inode holds, data or indirect, is below `sb.size`, marked in the
bitmap and not a bitmap block; no block is held twice; and every block below the size is in
place.  `balloc` then hands out only blocks the inode does not hold, and a write to one data
block changes no other byte of the file.

* `Good.congr`, `Good.balloc`, `Good.addBlock`, `Good.setIndirect`: the steps of `bmap` keep
  `Good` and every block in place (`Grows`);
* `bmap_good`: `bmap` keeps `Good`, and the block it returns is in place;
* `view_setBytes`: a write inside one block of the file changes those bytes and no other;
* `writeLoop_good`, `writei_good`: the bytes `writei` counts are the user's bytes, in order
  from `off`; the bytes outside `[off, off + n)` are as they were, and each byte between the
  ones counted and `off + n` is as it was or is the user's;
* `readi_good`: `readi` changes no byte of the file, and a positive count it returns is of bytes
  below the size.
-/

namespace Xv6.Fs.Data

open Bitmap Vm

/-- The byte at user address `va`, a `uint64`, through the page table. -/
def User.byteAt (u : User) (va : ℕ) : Option UInt8 := userByte u.ptm u.pagetable u.mem (va % 2 ^ 64)

/-! ### `uint`s in a block -/

theorem setUint_of_lt_or_le {blk : ℕ → UInt8} {i v j : ℕ} (h : j < 4 * i ∨ 4 * i + 4 ≤ j) :
    setUint blk i v j = blk j :=
  Writes.apply_block_of_lt_or_le (by simpa [uintBytes] using h)

/-- Reading back a `uint` keeps its low 32 bits; the other entries are as they were. -/
theorem getUint_setUint (blk : ℕ → UInt8) (i v i' : ℕ) :
    getUint (setUint blk i v) i' = if i' = i then v % 2 ^ 32 else getUint blk i' := by
  by_cases h : i' = i
  · subst h
    have hk : ∀ k (hk : k < 4), setUint blk i' v (4 * i' + k) = (uintBytes v)[k] :=
      fun k hk => Writes.apply_block_add _ _ _ k (by simpa [uintBytes] using hk)
    have h0 := hk 0 (by omega)
    rw [Nat.add_zero] at h0
    rw [if_pos rfl, getUint, h0, hk 1 (by omega), hk 2 (by omega), hk 3 (by omega)]
    simp only [uintBytes, List.getElem_cons_zero, List.getElem_cons_succ, Nat.toUInt8_eq,
      UInt8.toNat_ofNat']
    omega
  · rw [if_neg h, getUint, getUint, setUint_of_lt_or_le (by omega), setUint_of_lt_or_le (by omega),
      setUint_of_lt_or_le (by omega), setUint_of_lt_or_le (by omega)]

@[simp] theorem getUint_zero (i : ℕ) : getUint (fun _ => 0) i = 0 := rfl

/-! ### The blocks of an inode -/

/-- Block `bn` of the inode is in place: below `MAXFILE`, at a non-zero address, found through a
non-zero indirect block beyond the direct ones. -/
def Inode.Mapped (ip : Inode) (d : Dev) (bn : ℕ) : Prop :=
  bn < maxFile ∧ ip.blockOf d bn ≠ 0 ∧ (nDirect ≤ bn → ip.addrs nDirect ≠ 0)

/-- Block `b` is one of the inode's: the address of a block in place, or the indirect block. -/
def Inode.Holds (ip : Inode) (d : Dev) (b : ℕ) : Prop :=
  (∃ bn, ip.Mapped d bn ∧ ip.blockOf d bn = b) ∨ (ip.addrs nDirect ≠ 0 ∧ ip.addrs nDirect = b)

/-- The inode's blocks on the device are in order. -/
structure Good (d : Dev) (sb : Superblock) (ip : Inode) : Prop where
  /-- block numbers fit the `uint`s of the indirect block -/
  size_le : sb.size ≤ 2 ^ 32
  bitmap : BitmapMarked d sb
  lt_size : ∀ b, ip.Holds d b → b < sb.size
  marked : ∀ b, ip.Holds d b → d.marked sb b = true
  not_bitmap : ∀ b, ip.Holds d b → ∀ x < sb.size, bblock x sb ≠ b
  inj : ∀ bn bn', ip.Mapped d bn → ip.Mapped d bn' → ip.blockOf d bn = ip.blockOf d bn' → bn = bn'
  ind_ne : ∀ bn, ip.Mapped d bn → ip.blockOf d bn ≠ ip.addrs nDirect
  /-- no hole below the size -/
  full : ∀ bn, bn * bsize < ip.size → ip.Mapped d bn

/-- A block `balloc` has just taken for the inode: not `0`, below `sb.size`, marked, not a bitmap
block, and not one of the inode's. -/
structure Fresh (d : Dev) (sb : Superblock) (ip : Inode) (r : ℕ) : Prop where
  ne_zero : r ≠ 0
  lt_size : r < sb.size
  marked : d.marked sb r = true
  not_bitmap : ∀ x < sb.size, bblock x sb ≠ r
  not_holds : ¬ ip.Holds d r

/-- `d'` has the bytes of `d` in every block of the inode. -/
def Keeps (ip : Inode) (d d' : Dev) : Prop := ∀ b, ip.Holds d b → d'.data b = d.data b

/-- `(d', ip')` keeps every block of `(d, ip)` in place, at its address and with its bytes. -/
def Grows (d : Dev) (ip : Inode) (d' : Dev) (ip' : Inode) : Prop :=
  ∀ bn, ip.Mapped d bn → ip'.Mapped d' bn ∧ ip'.blockOf d' bn = ip.blockOf d bn ∧
    d'.data (ip.blockOf d bn) = d.data (ip.blockOf d bn)

section Frame

variable {d d' d'' : Dev} {sb : Superblock} {ip ip' ip'' : Inode}

theorem Inode.holds_of_mapped {bn : ℕ} (h : ip.Mapped d bn) : ip.Holds d (ip.blockOf d bn) :=
  .inl ⟨bn, h, rfl⟩

theorem Inode.holds_ind (h : ip.addrs nDirect ≠ 0) : ip.Holds d (ip.addrs nDirect) :=
  .inr ⟨h, rfl⟩

theorem Inode.Holds.ne_zero {b : ℕ} (h : ip.Holds d b) : b ≠ 0 := by
  rcases h with ⟨bn, hm, rfl⟩ | ⟨hne, rfl⟩
  · exact hm.2.1
  · exact hne

/-- A block in place is direct or below an indirect block. -/
theorem Inode.Mapped.direct_or_ind {bn : ℕ} (h : ip.Mapped d bn) :
    bn < nDirect ∨ ip.addrs nDirect ≠ 0 := by
  by_cases hbn : bn < nDirect
  · exact .inl hbn
  · exact .inr (h.2.2 (Nat.le_of_not_lt hbn))

section Congr

variable (h : ip.addrs nDirect ≠ 0 → d'.data (ip.addrs nDirect) = d.data (ip.addrs nDirect))
include h

/-- Devices that agree on the indirect block find the same blocks. -/
theorem blockOf_congr {bn : ℕ} (hbn : bn < nDirect ∨ ip.addrs nDirect ≠ 0) :
    ip.blockOf d' bn = ip.blockOf d bn := by
  unfold Inode.blockOf
  split_ifs with hlt
  · rfl
  · rw [h (hbn.resolve_left hlt)]

theorem mapped_congr {bn : ℕ} : ip.Mapped d' bn ↔ ip.Mapped d bn := by
  by_cases hbn : bn < nDirect ∨ ip.addrs nDirect ≠ 0
  · unfold Inode.Mapped
    rw [blockOf_congr h hbn]
  -- beyond the direct blocks with no indirect block: in place on neither device
  · have hge : nDirect ≤ bn := by omega
    have h0 : ip.addrs nDirect = 0 := by omega
    simp [Inode.Mapped, hge, h0]

theorem holds_congr {b : ℕ} : ip.Holds d' b ↔ ip.Holds d b := by
  unfold Inode.Holds
  constructor
  · rintro (⟨bn, hm, rfl⟩ | hi)
    · exact .inl ⟨bn, (mapped_congr h).1 hm, (blockOf_congr h hm.direct_or_ind).symm⟩
    · exact .inr hi
  · rintro (⟨bn, hm, rfl⟩ | hi)
    · exact .inl ⟨bn, (mapped_congr h).2 hm, blockOf_congr h hm.direct_or_ind⟩
    · exact .inr hi

end Congr

theorem Keeps.ind (hk : Keeps ip d d') :
    ip.addrs nDirect ≠ 0 → d'.data (ip.addrs nDirect) = d.data (ip.addrs nDirect) :=
  fun h => hk _ (Inode.holds_ind h)

theorem Grows.refl : Grows d ip d ip := fun _ h => ⟨h, rfl, rfl⟩

theorem Grows.trans (h₁ : Grows d ip d' ip') (h₂ : Grows d' ip' d'' ip'') : Grows d ip d'' ip'' := by
  intro bn hm
  obtain ⟨hm', hb', hd'⟩ := h₁ bn hm
  obtain ⟨hm'', hb'', hd''⟩ := h₂ bn hm'
  exact ⟨hm'', hb''.trans hb', by rw [← hb', hd'', hb', hd']⟩

theorem Keeps.grows (hk : Keeps ip d d') : Grows d ip d' ip := fun _ hm =>
  ⟨(mapped_congr hk.ind).2 hm, blockOf_congr hk.ind hm.direct_or_ind,
    hk _ (Inode.holds_of_mapped hm)⟩

/-- The bytes of a block in place stay as they were. -/
theorem Grows.view_eq (hg : Grows d ip d' ip') {o : ℕ} (ho : ip.Mapped d (o / bsize)) :
    view d' ip' o = view d ip o := by
  obtain ⟨-, hb, hd⟩ := hg _ ho
  rw [view, view, hb, hd]

/-- A byte below the size is in a block in place. -/
theorem Good.mapped_of_lt {sb : Superblock} (hg : Good d sb ip) {o : ℕ} (ho : o < ip.size) :
    ip.Mapped d (o / bsize) :=
  hg.full _ (lt_of_le_of_lt (Nat.div_mul_le_self o bsize) ho)

end Frame

/-! ### The steps of `bmap` -/

section Steps

variable {d d' : Dev} {sb : Superblock} {ip ip' : Inode} {r : ℕ}

/-- A change of the device that keeps the indirect block, the marks of the inode's blocks and
the bitmap's marks keeps `Good`. -/
theorem Good.congr (hg : Good d sb ip)
    (hi : ip.addrs nDirect ≠ 0 → d'.data (ip.addrs nDirect) = d.data (ip.addrs nDirect))
    (hm : ∀ b, ip.Holds d b → d'.marked sb b = true) (hbm : BitmapMarked d' sb) :
    Good d' sb ip where
  size_le := hg.size_le
  bitmap := hbm
  lt_size b hb := hg.lt_size b ((holds_congr hi).1 hb)
  marked b hb := hm b ((holds_congr hi).1 hb)
  not_bitmap b hb := hg.not_bitmap b ((holds_congr hi).1 hb)
  inj bn bn' h₁ h₂ he := by
    rw [blockOf_congr hi h₁.direct_or_ind, blockOf_congr hi h₂.direct_or_ind] at he
    exact hg.inj bn bn' ((mapped_congr hi).1 h₁) ((mapped_congr hi).1 h₂) he
  ind_ne bn h := by
    rw [blockOf_congr hi h.direct_or_ind]
    exact hg.ind_ne bn ((mapped_congr hi).1 h)
  full bn h := (mapped_congr hi).2 (hg.full bn h)

/-- `log_write` changes no byte. -/
theorem Good.logWrite (hg : Good d sb ip) (blk : ℕ) : Good (d.logWrite blk) sb ip :=
  hg.congr (fun _ => rfl) hg.marked hg.bitmap

/-- `balloc` keeps `Good` and the bytes of the inode's blocks, and a block it returns is
`Fresh`, zeroed. -/
theorem Good.balloc (hg : Good d sb ip) (h : Bitmap.balloc d sb = (d', r)) :
    Good d' sb ip ∧ Keeps ip d d' ∧ (r ≠ 0 → Fresh d' sb ip r ∧ d'.data r = fun _ => 0) := by
  rcases balloc_spec d sb with ⟨-, heq⟩ | ⟨r', hr', hclear, -, heq⟩
  -- every block marked: nothing changes
  · rw [heq, Prod.mk.injEq] at h
    obtain ⟨rfl, rfl⟩ := h
    exact ⟨hg, fun _ _ => rfl, fun h0 => absurd rfl h0⟩
  -- the least clear block `r'` taken; the inode's blocks are marked, so none is `r'`
  · rw [heq, Prod.mk.injEq] at h
    obtain ⟨rfl, rfl⟩ := h
    have hne : ∀ b, ip.Holds d b → b ≠ r' := by
      rintro b hb rfl
      rw [hg.marked b hb] at hclear
      cases hclear
    have hk : Keeps ip d ((d.setBit sb r').bzero r') := fun b' hb' =>
      take_data hr' (hne b' hb') (hg.not_bitmap b' hb')
    refine ⟨hg.congr hk.ind (fun b' hb' => ?_) (take_bitmapMarked hg.bitmap hr' hclear),
      hk, fun h0 => ⟨⟨h0, hr', ?_, fun x hx => bblock_ne_of_clear hg.bitmap hr' hclear hx,
        fun hh => hne _ ((holds_congr hk.ind).1 hh) rfl⟩, ?_⟩⟩
    · rw [take_marked hg.bitmap hr' hclear (hg.lt_size b' hb'), hg.marked b' hb', Bool.true_or]
    · rw [take_marked hg.bitmap hr' hclear hr']
      simp
    · funext i
      rw [Dev.bzero_data, if_pos rfl]

/-- `Good` after the inode takes a fresh data block `r` as its block `bn₀`, with the indirect
block and the marks below `sb.size` as they were. -/
theorem Good.addBlock (hg : Good d sb ip) (hr : Fresh d sb ip r) (bn₀ : ℕ)
    (hmarks : ∀ b < sb.size, d'.marked sb b = d.marked sb b)
    (hind : ip'.addrs nDirect = ip.addrs nDirect) (hsize : ip'.size = ip.size)
    (hgrow : ∀ bn, ip.Mapped d bn → ip'.Mapped d' bn ∧ ip'.blockOf d' bn = ip.blockOf d bn)
    (hnew : ∀ bn, ip'.Mapped d' bn → ip.Mapped d bn ∨ (bn = bn₀ ∧ ip'.blockOf d' bn = r)) :
    Good d' sb ip' := by
  -- the blocks of the new inode are the old ones and `r`
  have hholds : ∀ b, ip'.Holds d' b → b = r ∨ ip.Holds d b := by
    rintro b (⟨bn, hm, rfl⟩ | ⟨hne, rfl⟩)
    · rcases hnew bn hm with hm' | ⟨-, hb⟩
      · rw [(hgrow bn hm').2]
        exact .inr (Inode.holds_of_mapped hm')
      · exact .inl hb
    · rw [hind] at hne ⊢
      exact .inr (Inode.holds_ind hne)
  have hne : ∀ b, ip.Holds d b → b ≠ r := fun b hb h => hr.not_holds (h ▸ hb)
  refine ⟨hg.size_le, fun b hb hbb => ?_, fun b hb => ?_, fun b hb => ?_, fun b hb => ?_,
    fun bn bn' h₁ h₂ he => ?_, fun bn hm => ?_, fun bn h => ?_⟩
  · rw [hmarks _ hbb]
    exact hg.bitmap b hb hbb
  · rcases hholds b hb with rfl | hb
    · exact hr.lt_size
    · exact hg.lt_size b hb
  · rcases hholds b hb with rfl | hb
    · rw [hmarks _ hr.lt_size]
      exact hr.marked
    · rw [hmarks _ (hg.lt_size b hb)]
      exact hg.marked b hb
  · rcases hholds b hb with rfl | hb
    · exact hr.not_bitmap
    · exact hg.not_bitmap b hb
  -- two blocks at one address: both old, or both the new one
  · rcases hnew bn h₁ with h₁ | ⟨rfl, hb₁⟩ <;> rcases hnew bn' h₂ with h₂ | ⟨rfl, hb₂⟩
    · rw [(hgrow _ h₁).2, (hgrow _ h₂).2] at he
      exact hg.inj _ _ h₁ h₂ he
    · rw [(hgrow _ h₁).2, hb₂] at he
      exact absurd he (hne _ (Inode.holds_of_mapped h₁))
    · rw [(hgrow _ h₂).2, hb₁] at he
      exact absurd he.symm (hne _ (Inode.holds_of_mapped h₂))
    · rfl
  · rw [hind]
    rcases hnew bn hm with hm | ⟨-, hb⟩
    · rw [(hgrow bn hm).2]
      exact hg.ind_ne bn hm
    -- the indirect block, when there is one, is the inode's, and `r` is not
    · rw [hb]
      intro h
      by_cases h0 : ip.addrs nDirect = 0
      · exact hr.ne_zero (h.trans h0)
      · exact hne _ (Inode.holds_ind h0) h.symm
  · rw [hsize] at h
    exact (hgrow bn (hg.full bn h)).1

/-- `ip->addrs[j] = addr` for a direct block `j`. -/
theorem blockOf_setAddr {j : ℕ} (hj : j < nDirect) (bn : ℕ) :
    ({ ip with addrs := Function.update ip.addrs j r } : Inode).blockOf d bn =
      if bn = j then r else ip.blockOf d bn := by
  unfold Inode.blockOf
  by_cases hbn : bn < nDirect
  · by_cases hbj : bn = j
    · subst hbj
      simp [hj]
    · simp [hbn, hbj]
  · have hbj : bn ≠ j := by omega
    simp only [hbn, if_false, hbj, Function.update_of_ne (show nDirect ≠ j by omega)]

theorem Good.setAddr (hg : Good d sb ip) (hr : Fresh d sb ip r) {j : ℕ} (hj : j < nDirect)
    (h0 : ip.addrs j = 0) :
    Good d sb { ip with addrs := Function.update ip.addrs j r } ∧
      Grows d ip d { ip with addrs := Function.update ip.addrs j r } := by
  have hind : ({ ip with addrs := Function.update ip.addrs j r } : Inode).addrs nDirect =
      ip.addrs nDirect := Function.update_of_ne (by omega) _ _
  -- block `j` was not in place: its address was `0`
  have hj0 : ∀ bn, ip.Mapped d bn → bn ≠ j := by
    rintro bn hm rfl
    exact hm.2.1 (by rw [Inode.blockOf, if_pos hj, h0])
  have hgrow : ∀ bn, ip.Mapped d bn →
      ({ ip with addrs := Function.update ip.addrs j r } : Inode).Mapped d bn ∧
        ({ ip with addrs := Function.update ip.addrs j r } : Inode).blockOf d bn =
          ip.blockOf d bn := by
    intro bn hm
    have hb : ({ ip with addrs := Function.update ip.addrs j r } : Inode).blockOf d bn =
        if bn = j then r else ip.blockOf d bn := blockOf_setAddr hj bn
    rw [if_neg (hj0 bn hm)] at hb
    refine ⟨⟨hm.1, by rw [hb]; exact hm.2.1, fun h => by rw [hind]; exact hm.2.2 h⟩, hb⟩
  refine ⟨hg.addBlock hr j (fun _ _ => rfl) hind rfl hgrow fun bn hm => ?_,
    fun bn hm => ⟨(hgrow bn hm).1, (hgrow bn hm).2, rfl⟩⟩
  unfold Inode.Mapped at hm
  rw [blockOf_setAddr hj] at hm ⊢
  by_cases hbj : bn = j
  · exact .inr ⟨hbj, if_pos hbj⟩
  · rw [if_neg hbj] at hm ⊢
    exact .inl ⟨hm.1, hm.2.1, fun h => by rw [← hind]; exact hm.2.2 h⟩

/-- `a[bn₀ - NDIRECT] = addr` in the indirect block. -/
theorem blockOf_setEntry {bn₀ : ℕ} (hge : nDirect ≤ bn₀) (hr32 : r < 2 ^ 32) (bn : ℕ) :
    ip.blockOf (d.setData (ip.addrs nDirect)
        (setUint (d.data (ip.addrs nDirect)) (bn₀ - nDirect) r)) bn =
      if bn = bn₀ then r else ip.blockOf d bn := by
  unfold Inode.blockOf
  by_cases hbn : bn < nDirect
  · have hne : bn ≠ bn₀ := by omega
    simp only [hbn, if_true, hne, if_false]
  · rw [if_neg hbn, if_neg hbn, Dev.setData_data, if_pos rfl, getUint_setUint]
    by_cases hb : bn = bn₀
    · rw [if_pos (by omega), if_pos hb, Nat.mod_eq_of_lt hr32]
    · rw [if_neg (by omega), if_neg hb]

theorem Good.setEntry (hg : Good d sb ip) (hr : Fresh d sb ip r) (hind : ip.addrs nDirect ≠ 0)
    {bn₀ : ℕ} (hge : nDirect ≤ bn₀) (hlt : bn₀ < maxFile) (h0 : ip.blockOf d bn₀ = 0)
    (hd' : d' = d.setData (ip.addrs nDirect) (setUint (d.data (ip.addrs nDirect)) (bn₀ - nDirect) r)) :
    Good d' sb ip ∧ Grows d ip d' ip ∧ ip.Mapped d' bn₀ ∧ ip.blockOf d' bn₀ = r := by
  have hb : ∀ bn, ip.blockOf d' bn = if bn = bn₀ then r else ip.blockOf d bn := by
    rw [hd']
    exact blockOf_setEntry hge (lt_of_lt_of_le hr.lt_size hg.size_le)
  -- only the indirect block changes, and it holds no bit
  have hmarks : ∀ b < sb.size, d'.marked sb b = d.marked sb b := fun b hb => by
    rw [hd']
    exact Dev.marked_setData d sb _ (hg.not_bitmap _ (Inode.holds_ind hind) b hb)
  have hb0 : ∀ bn, ip.Mapped d bn → bn ≠ bn₀ := by
    rintro bn hm rfl
    exact hm.2.1 h0
  have hgrow : ∀ bn, ip.Mapped d bn → ip.Mapped d' bn ∧ ip.blockOf d' bn = ip.blockOf d bn := by
    intro bn hm
    rw [hb, if_neg (hb0 bn hm)]
    exact ⟨⟨hm.1, by rw [hb, if_neg (hb0 bn hm)]; exact hm.2.1, hm.2.2⟩, rfl⟩
  have hnew : ∀ bn, ip.Mapped d' bn → ip.Mapped d bn ∨ (bn = bn₀ ∧ ip.blockOf d' bn = r) := by
    intro bn hm
    by_cases hbj : bn = bn₀
    · exact .inr ⟨hbj, by rw [hb, if_pos hbj]⟩
    · have hbn := hb bn
      rw [if_neg hbj] at hbn
      exact .inl ⟨hm.1, by rw [← hbn]; exact hm.2.1, hm.2.2⟩
  refine ⟨hg.addBlock hr bn₀ hmarks rfl rfl hgrow hnew,
    fun bn hm => ⟨(hgrow bn hm).1, (hgrow bn hm).2, ?_⟩,
    ⟨hlt, by rw [hb, if_pos rfl]; exact hr.ne_zero, fun _ => hind⟩, by rw [hb, if_pos rfl]⟩
  -- a block in place is not the indirect block, the one written
  rw [hd', Dev.setData_data, if_neg (hg.ind_ne bn hm)]

/-- `ip->addrs[NDIRECT] = addr`, a zeroed block. -/
theorem blockOf_setIndirect (ha : ip'.addrs = Function.update ip.addrs nDirect r)
    (hz : d.data r = fun _ => 0) (bn : ℕ) :
    ip'.blockOf d bn = if bn < nDirect then ip.blockOf d bn else 0 := by
  unfold Inode.blockOf
  by_cases hbn : bn < nDirect
  · simp only [hbn, if_true, ha, Function.update_of_ne (show bn ≠ nDirect by omega)]
  · simp only [hbn, if_false, ha, Function.update_self, hz, getUint_zero]

theorem Good.setIndirect (hg : Good d sb ip) (hr : Fresh d sb ip r) (h0 : ip.addrs nDirect = 0)
    (hz : d.data r = fun _ => 0) (ha : ip'.addrs = Function.update ip.addrs nDirect r)
    (hs : ip'.size = ip.size) : Good d sb ip' ∧ Grows d ip d ip' := by
  have hind : ip'.addrs nDirect = r := by rw [ha, Function.update_self]
  -- the blocks in place are the direct ones, as before
  have hdirect : ∀ bn, ip.Mapped d bn → bn < nDirect := fun bn hm => by
    by_contra h
    exact hm.2.2 (by omega) h0
  have hmapped : ∀ bn, ip'.Mapped d bn ↔ ip.Mapped d bn := by
    intro bn
    unfold Inode.Mapped
    rw [blockOf_setIndirect ha hz]
    by_cases hbn : bn < nDirect
    · simp [hbn]
    · simp [hbn, h0]
  have hb : ∀ bn, ip.Mapped d bn → ip'.blockOf d bn = ip.blockOf d bn := fun bn hm => by
    rw [blockOf_setIndirect ha hz, if_pos (hdirect bn hm)]
  have hholds : ∀ b, ip'.Holds d b → b = r ∨ ip.Holds d b := by
    rintro b (⟨bn, hm, rfl⟩ | ⟨-, rfl⟩)
    · rw [hmapped] at hm
      rw [hb bn hm]
      exact .inr (Inode.holds_of_mapped hm)
    · exact .inl hind
  have hne : ∀ b, ip.Holds d b → b ≠ r := fun b hb h => hr.not_holds (h ▸ hb)
  refine ⟨⟨hg.size_le, hg.bitmap, fun b hb => ?_, fun b hb => ?_, fun b hb => ?_,
    fun bn bn' h₁ h₂ he => ?_, fun bn hm => ?_, fun bn h => (hmapped bn).2 (hg.full bn (hs ▸ h))⟩,
    fun bn hm => ⟨(hmapped bn).2 hm, hb bn hm, rfl⟩⟩
  · rcases hholds b hb with rfl | hb
    · exact hr.lt_size
    · exact hg.lt_size b hb
  · rcases hholds b hb with rfl | hb
    · exact hr.marked
    · exact hg.marked b hb
  · rcases hholds b hb with rfl | hb
    · exact hr.not_bitmap
    · exact hg.not_bitmap b hb
  · rw [hmapped] at h₁ h₂
    rw [hb _ h₁, hb _ h₂] at he
    exact hg.inj _ _ h₁ h₂ he
  · rw [hmapped] at hm
    rw [hb _ hm, hind]
    exact hne _ (Inode.holds_of_mapped hm)

/-! ### Writing a block of the file -/

/-- A write to a block in place keeps `Good`: it is neither the indirect block nor a bitmap
block. -/
theorem Good.setBytes_ind (hg : Good d sb ip) {bn : ℕ} (hm : ip.Mapped d bn) (k : ℕ)
    (bs : List UInt8) : ip.addrs nDirect ≠ 0 →
      (d.setBytes (ip.blockOf d bn) k bs).data (ip.addrs nDirect) = d.data (ip.addrs nDirect) :=
  fun _ => by rw [Dev.setBytes, Dev.setData_data, if_neg (Ne.symm (hg.ind_ne bn hm))]

theorem Good.setBytes (hg : Good d sb ip) {bn : ℕ} (hm : ip.Mapped d bn) (k : ℕ)
    (bs : List UInt8) : Good (d.setBytes (ip.blockOf d bn) k bs) sb ip := by
  have ha := Inode.holds_of_mapped hm
  refine hg.congr (hg.setBytes_ind hm k bs) (fun b hb => ?_) (fun b hb hbb => ?_)
  · rw [Dev.setBytes, Dev.marked_setData _ _ _ (hg.not_bitmap _ ha b (hg.lt_size b hb))]
    exact hg.marked b hb
  · rw [Dev.setBytes, Dev.marked_setData _ _ _ (hg.not_bitmap _ ha _ hbb)]
    exact hg.bitmap b hb hbb

/-- Writing `bs` at `off` inside one block in place: the bytes at `off, …` become `bs`, and no
other byte of the file changes. -/
theorem view_setBytes (hg : Good d sb ip) {off : ℕ} (hm : ip.Mapped d (off / bsize))
    {bs : List UInt8} (hlen : off % bsize + bs.length ≤ bsize) {o : ℕ}
    (ho : ip.Mapped d (o / bsize)) :
    view (d.setBytes (ip.blockOf d (off / bsize)) (off % bsize) bs) ip o =
      if h : off ≤ o ∧ o < off + bs.length then bs[o - off] else view d ip o := by
  rw [view, blockOf_congr (hg.setBytes_ind hm _ bs) ho.direct_or_ind, Dev.setBytes,
    Dev.setData_data]
  by_cases hsame : o / bsize = off / bsize
  · rw [if_pos (by rw [hsame])]
    split_ifs with hin
    -- inside the write
    · have hmod : o % bsize = off % bsize + (o - off) := by
        unfold bsize at *
        omega
      rw [hmod, Writes.apply_block_add _ _ _ _ (by omega)]
    -- in the same block, before or after the write
    · rw [Writes.apply_block_of_lt_or_le (by unfold bsize at *; omega), view, hsame]
  -- another block in place has another address
  · have hne : ip.blockOf d (o / bsize) ≠ ip.blockOf d (off / bsize) := fun he =>
      hsame (hg.inj _ _ ho hm he)
    rw [if_neg hne, dif_neg (by unfold bsize at *; omega)]
    rfl

/-! ### `bmap` -/

/-- `ensureAddr` keeps `Good` and every block in place; a non-zero address it returns is now
address `j` of the inode. -/
theorem ensureAddr_good (hg : Good d sb ip) {j a : ℕ} (hj : j ≤ nDirect)
    (h : ensureAddr d sb ip j = (d', ip', a)) :
    Good d' sb ip' ∧ Grows d ip d' ip' ∧ (a ≠ 0 → ip'.addrs j = a) := by
  unfold ensureAddr at h
  split_ifs at h with h0
  · split at h
    -- out of blocks, or block `0` taken: the inode is as it was
    · rename_i d₁ hb
      simp only [Prod.mk.injEq] at h
      obtain ⟨rfl, rfl, rfl⟩ := h
      obtain ⟨hg₁, hk, -⟩ := hg.balloc hb
      exact ⟨hg₁, hk.grows, fun h => absurd rfl h⟩
    -- a fresh block becomes address `j`: a direct block, or the indirect block, zeroed
    · rename_i d₁ r hr hb
      simp only [Prod.mk.injEq] at h
      obtain ⟨rfl, rfl, rfl⟩ := h
      obtain ⟨hg₁, hk, hfresh⟩ := hg.balloc hb
      obtain ⟨hfr, hz⟩ := hfresh hr
      rcases Nat.lt_or_eq_of_le hj with hj | rfl
      · obtain ⟨hg₂, hgr⟩ := hg₁.setAddr hfr hj h0
        exact ⟨hg₂, hk.grows.trans hgr, fun _ => Function.update_self _ _ _⟩
      · obtain ⟨hg₂, hgr⟩ : Good d₁ sb { ip with addrs := Function.update ip.addrs nDirect r } ∧
            Grows d₁ ip d₁ { ip with addrs := Function.update ip.addrs nDirect r } :=
          hg₁.setIndirect hfr h0 hz rfl rfl
        exact ⟨hg₂, hk.grows.trans hgr, fun _ => by simp⟩
  · simp only [Prod.mk.injEq] at h
    obtain ⟨rfl, rfl, rfl⟩ := h
    exact ⟨hg, Grows.refl, fun _ => rfl⟩

/-- `bmap` keeps `Good` and every block in place, and a block it returns is block `bn` of the
inode, in place. -/
theorem bmap_good (hg : Good d sb ip) {bn a : ℕ} (hbn : bn < maxFile)
    (h : bmap d sb ip bn = .ok (d', ip', a)) :
    Good d' sb ip' ∧ Grows d ip d' ip' ∧ (a ≠ 0 → ip'.Mapped d' bn ∧ ip'.blockOf d' bn = a) := by
  unfold bmap at h
  split_ifs at h with h1 h2
  -- a direct block
  · obtain ⟨hg', hgr, ha⟩ := ensureAddr_good hg h1.le (Except.ok.inj h)
    refine ⟨hg', hgr, fun ha0 => ?_⟩
    have hb : ip'.blockOf d' bn = a := by rw [Inode.blockOf, if_pos h1, ha ha0]
    exact ⟨⟨hbn, by rw [hb]; exact ha0, fun h => absurd h (by omega)⟩, hb⟩
  · split at h
    -- no indirect block to be had
    · rename_i d₁ ip₁ he
      obtain ⟨hg₁, hgr₁, -⟩ := ensureAddr_good hg le_rfl he
      simp only [Except.ok.injEq, Prod.mk.injEq] at h
      obtain ⟨rfl, rfl, rfl⟩ := h
      exact ⟨hg₁, hgr₁, fun h => absurd rfl h⟩
    · rename_i d₁ ip₁ ind hi0 he
      obtain ⟨hg₁, hgr₁, hind₁⟩ := ensureAddr_good hg le_rfl he
      have hind : ip₁.addrs nDirect = ind := hind₁ hi0
      have hind0 : ip₁.addrs nDirect ≠ 0 := by
        rw [hind]
        exact hi0
      have hentry : ip₁.blockOf d₁ bn = getUint (d₁.data ind) (bn - nDirect) := by
        rw [Inode.blockOf, if_neg h1, hind]
      dsimp only at h
      split_ifs at h with ha0
      · split at h
        -- out of blocks for the entry
        · rename_i d₂ hb
          obtain ⟨hg₂, hk₂, -⟩ := hg₁.balloc hb
          simp only [Except.ok.injEq, Prod.mk.injEq] at h
          obtain ⟨rfl, rfl, rfl⟩ := h
          exact ⟨hg₂, hgr₁.trans hk₂.grows, fun h => absurd rfl h⟩
        -- a fresh block entered in the indirect block, whose bytes `balloc` kept
        · rename_i d₂ r hr hb
          obtain ⟨hg₂, hk₂, hfresh⟩ := hg₁.balloc hb
          have h0 : ip₁.blockOf d₂ bn = 0 := by
            rw [blockOf_congr hk₂.ind (.inr hind0), hentry]
            exact ha0
          obtain ⟨hg₃, hgr₃, hm₃, hb₃⟩ := hg₂.setEntry (hfresh hr).1 hind0 (by omega) hbn h0
            (show d₂.setData ind (setUint (d₂.data ind) (bn - nDirect) r) = _ by rw [hind])
          simp only [Except.ok.injEq, Prod.mk.injEq] at h
          obtain ⟨rfl, rfl, rfl⟩ := h
          exact ⟨hg₃.logWrite ind, hgr₁.trans (hk₂.grows.trans hgr₃), fun _ => ⟨hm₃, hb₃⟩⟩
      -- the entry is there
      · simp only [Except.ok.injEq, Prod.mk.injEq] at h
        obtain ⟨rfl, rfl, rfl⟩ := h
        exact ⟨hg₁, hgr₁, fun _ => ⟨⟨hbn, by rw [hentry]; exact ha0, fun _ => hind0⟩, hentry⟩⟩

/-! ### The loop of `writei` -/

/-- A write of `k` bytes from user address `va` to file offset `off` that counted the bytes up to
`off'`: those are the user's bytes, in place; no byte outside `[off, off + k)` changed; and each
byte from `off'` to `off + k` is as it was or the user's. -/
structure Wrote (u : User) (va off k off' : ℕ) (d : Dev) (ip : Inode) (d' : Dev) (ip' : Inode) :
    Prop where
  le : off ≤ off'
  mapped : ∀ o, ip.Mapped d (o / bsize) → ip'.Mapped d' (o / bsize)
  counted : ∀ o, off ≤ o → o < off' →
    ip'.Mapped d' (o / bsize) ∧ u.byteAt (va + (o - off)) = some (view d' ip' o)
  outside : ∀ o, ip.Mapped d (o / bsize) → o < off ∨ off + k ≤ o → view d' ip' o = view d ip o
  uncounted : ∀ o, ip.Mapped d (o / bsize) → off' ≤ o → o < off + k →
    view d' ip' o = view d ip o ∨ u.byteAt (va + (o - off)) = some (view d' ip' o)

section Wrote

variable {u : User} {va off k off' : ℕ} {d₁ : Dev} {ip₁ : Inode}

/-- Nothing written. -/
theorem Wrote.of_grows (hg : Grows d ip d' ip') : Wrote u va off k off d ip d' ip' where
  le := le_rfl
  mapped _ ho := (hg _ ho).1
  counted _ h₁ h₂ := absurd h₂ (Nat.not_lt.2 h₁)
  outside _ ho _ := hg.view_eq ho
  uncounted _ ho _ _ := .inl (hg.view_eq ho)

/-- Blocks put in place before a write stay in place through it. -/
theorem Wrote.grows (hg : Grows d ip d₁ ip₁) (hw : Wrote u va off k off' d₁ ip₁ d' ip') :
    Wrote u va off k off' d ip d' ip' where
  le := hw.le
  mapped o ho := hw.mapped o (hg _ ho).1
  counted := hw.counted
  outside o ho h := (hw.outside o (hg _ ho).1 h).trans (hg.view_eq ho)
  uncounted o ho h₁ h₂ := by
    rw [← hg.view_eq ho]
    exact hw.uncounted o (hg _ ho).1 h₁ h₂

theorem Wrote.logWrite (hw : Wrote u va off k off' d ip d' ip') (blk : ℕ) :
    Wrote u va off k off' d ip (d'.logWrite blk) ip' :=
  ⟨hw.le, hw.mapped, hw.counted, hw.outside, hw.uncounted⟩

/-- A chunk of `m` bytes written and counted, then the rest from `off + m`. -/
theorem Wrote.trans {m : ℕ} (hm : m ≤ k) (h₁ : Wrote u va off k (off + m) d ip d₁ ip₁)
    (h₂ : Wrote u (va + m) (off + m) (k - m) off' d₁ ip₁ d' ip') :
    Wrote u va off k off' d ip d' ip' where
  le := by have := h₂.le; omega
  mapped o ho := h₂.mapped o (h₁.mapped o ho)
  counted o ho ho' := by
    by_cases hlt : o < off + m
    -- counted by the chunk, and outside the rest
    · obtain ⟨hm₁, hb⟩ := h₁.counted o ho hlt
      rw [h₂.outside o hm₁ (.inl hlt)]
      exact ⟨h₂.mapped o hm₁, hb⟩
    · obtain ⟨hm₂, hb⟩ := h₂.counted o (by omega) ho'
      rw [show va + m + (o - (off + m)) = va + (o - off) by omega] at hb
      exact ⟨hm₂, hb⟩
  outside o ho h := by
    rw [h₂.outside o (h₁.mapped o ho) (by omega), h₁.outside o ho h]
  uncounted o ho h h' := by
    have hva : va + m + (o - (off + m)) = va + (o - off) := by
      have := h₂.le
      omega
    rcases h₂.uncounted o (h₁.mapped o ho) h (by omega) with h₂' | h₂'
    · rw [h₂']
      exact h₁.uncounted o ho (by have := h₂.le; omega) h'
    · rw [hva] at h₂'
      exact .inr h₂'

end Wrote

/-- Each byte `copyin` copies from `va` is the user's byte there. -/
theorem byteAt_copyin (u : User) (va len i : ℕ)
    (hi : i < (copyin u.ptm u.pagetable u.mem (va % 2 ^ 64) len).2.length) :
    u.byteAt (va + i) = some (copyin u.ptm u.pagetable u.mem (va % 2 ^ 64) len).2[i] := by
  have hb := copyin_bytes u.ptm u.pagetable u.mem len (va % 2 ^ 64) i hi
  -- a byte that is there lies below `MAXVA`, so its address does not wrap
  have hlt := lt_of_userByte u.ptm u.pagetable u.mem hb
  have hmod : (va + i) % 2 ^ 64 = va % 2 ^ 64 + i := by
    unfold maxVa at hlt
    omega
  rw [User.byteAt, hmod, hb]

/-- One chunk inside a block in place: `bs`, the user's bytes from `va`, written at `off`, of
which the first `c` are counted. -/
theorem wrote_setBytes (hg : Good d sb ip) (hm : ip.Mapped d (off / bsize)) {bs : List UInt8}
    (hlen : off % bsize + bs.length ≤ bsize) (hk : bs.length ≤ k)
    (hbs : ∀ i (hi : i < bs.length), u.byteAt (va + i) = some bs[i]) {c : ℕ}
    (hc : c ≤ bs.length) :
    Wrote u va off k (off + c) d ip (d.setBytes (ip.blockOf d (off / bsize)) (off % bsize) bs) ip
    where
  le := Nat.le_add_right _ _
  mapped _ ho := (mapped_congr (hg.setBytes_ind hm _ bs)).2 ho
  counted o h₁ h₂ := by
    have hdiv : o / bsize = off / bsize := by
      unfold bsize at *
      omega
    rw [view_setBytes hg hm hlen (hdiv ▸ hm), dif_pos ⟨h₁, by omega⟩]
    exact ⟨(mapped_congr (hg.setBytes_ind hm _ bs)).2 (hdiv ▸ hm), hbs _ _⟩
  outside o ho h := by
    rw [view_setBytes hg hm hlen ho, dif_neg (by omega)]
  uncounted o ho _ _ := by
    rw [view_setBytes hg hm hlen ho]
    split_ifs with hin
    · exact .inr (hbs _ _)
    · exact .inl rfl

theorem div_bsize_lt {off k : ℕ} (hk : 0 < k) (h : off + k ≤ maxFile * bsize) :
    off / bsize < maxFile := by
  rw [Nat.div_lt_iff_lt_mul (by decide)]
  omega

/-- The loop of `writei` from `tot` bytes written at offset `off`: what it writes is `Wrote`, and
the blocks stay in order. -/
theorem writeLoop_good (hg : Good d sb ip) {src n tot off tot' off' : ℕ} (ht : tot ≤ n)
    (hn : off + (n - tot) ≤ maxFile * bsize)
    (h : writeLoop sb u src n d ip tot off = .ok (d', ip', tot', off')) :
    Good d' sb ip' ∧ Wrote u (src + tot) off (n - tot) off' d ip d' ip' := by
  fun_induction writeLoop sb u src n d ip tot off with
  | case1 => cases h
  -- out of blocks
  | case2 d ip tot off hlt d₁ ip₁ hb =>
    simp only [Except.ok.injEq, Prod.mk.injEq] at h
    obtain ⟨rfl, rfl, -, rfl⟩ := h
    obtain ⟨hg₁, hgr, -⟩ := bmap_good hg (div_bsize_lt (by omega) hn) hb
    exact ⟨hg₁, Wrote.of_grows hgr⟩
  -- `copyin` faults: the bytes it copied are written, none counted
  | case3 d ip tot off hlt d₁ ip₁ addr hb haddr m c d₂ hc =>
    simp only [Except.ok.injEq, Prod.mk.injEq] at h
    obtain ⟨rfl, rfl, -, rfl⟩ := h
    obtain ⟨hg₁, hgr, hmap⟩ := bmap_good hg (div_bsize_lt (by omega) hn) hb
    obtain ⟨hm₁, rfl⟩ := hmap haddr
    have hm : m = min (n - tot) (bsize - off % bsize) := rfl
    have hlen := (copyin_length u.ptm u.pagetable u.mem m ((src + tot) % 2 ^ 64)).2.1
    have hoff : off % bsize < bsize := Nat.mod_lt _ (by decide)
    exact ⟨hg₁.setBytes hm₁ _ _, Wrote.grows hgr (wrote_setBytes hg₁ hm₁ (by omega) (by omega)
      (byteAt_copyin u (src + tot) m) (Nat.zero_le _))⟩
  -- a whole chunk written and counted, then the rest from `off + m`
  | case4 d ip tot off hlt d₁ ip₁ addr hb haddr m c d₂ hc ih =>
    obtain ⟨hg₁, hgr, hmap⟩ := bmap_good hg (div_bsize_lt (by omega) hn) hb
    obtain ⟨hm₁, rfl⟩ := hmap haddr
    have hm : m = min (n - tot) (bsize - off % bsize) := rfl
    have hlen : (copyin u.ptm u.pagetable u.mem ((src + tot) % 2 ^ 64) m).2.length = m := by
      obtain ⟨h01, -, hall⟩ := copyin_length u.ptm u.pagetable u.mem m ((src + tot) % 2 ^ 64)
      exact hall (h01.resolve_right hc)
    have hoff : off % bsize < bsize := Nat.mod_lt _ (by decide)
    have hchunk : Wrote u (src + tot) off (n - tot) (off + m) d₁ ip₁ d₂ ip₁ :=
      wrote_setBytes hg₁ hm₁ (by omega) (by omega) (byteAt_copyin u (src + tot) m) hlen.ge
    obtain ⟨hg', hrest⟩ := ih ((hg₁.setBytes hm₁ _ _).logWrite _) (by omega) (by omega) h
    rw [← Nat.add_assoc, ← Nat.sub_sub] at hrest
    exact ⟨hg', Wrote.grows hgr (Wrote.trans (by omega) (hchunk.logWrite _) hrest)⟩
  | case5 =>
    simp only [Except.ok.injEq, Prod.mk.injEq] at h
    obtain ⟨rfl, rfl, -, rfl⟩ := h
    exact ⟨hg, Wrote.of_grows Grows.refl⟩

/-- `ip->size = off`: the blocks stay in order when every block below the new size is in
place. -/
theorem Good.setSize (hg : Good d sb ip) {s : ℕ} (hs : ∀ bn, bn * bsize < s → ip.Mapped d bn) :
    Good d sb { ip with size := s } :=
  ⟨hg.size_le, hg.bitmap, hg.lt_size, hg.marked, hg.not_bitmap, hg.inj, hg.ind_ne, hs⟩

/-- `writei(ip, 1, src, off, n)` on an inode whose blocks are in order either refuses the range
and changes nothing, or returns `t ≤ n` with the size covering `off + t` and the blocks in
order: the `t` bytes from `off` are the user's bytes from `src`, the bytes of the file before
`off` and from `off + n` on are as they were, and each byte from `off + t` to `off + n` is as it
was or the user's. -/
theorem writei_good (hg : Good d sb ip) {src off n : ℕ} {r : ℤ}
    (h : writei d sb ip u src off n = .ok (d', ip', r)) :
    (r = -1 ∧ d' = d ∧ ip' = ip) ∨
      ∃ t ≤ n, r = t ∧ Good d' sb ip' ∧ ip'.size = max ip.size (off + t) ∧
        (∀ o, off ≤ o → o < off + t → u.byteAt (src + (o - off)) = some (view d' ip' o)) ∧
        (∀ o < ip.size, o < off ∨ off + n ≤ o → view d' ip' o = view d ip o) ∧
        (∀ o < ip.size, off + t ≤ o → o < off + n →
          view d' ip' o = view d ip o ∨ u.byteAt (src + (o - off)) = some (view d' ip' o)) := by
  unfold writei at h
  split_ifs at h with h1 h2
  -- a refused range
  · simp only [Except.ok.injEq, Prod.mk.injEq] at h
    obtain ⟨rfl, rfl, rfl⟩ := h
    exact .inl ⟨rfl, rfl, rfl⟩
  · simp only [Except.ok.injEq, Prod.mk.injEq] at h
    obtain ⟨rfl, rfl, rfl⟩ := h
    exact .inl ⟨rfl, rfl, rfl⟩
  · split at h
    · cases h
    rename_i d₁ ip₁ t off' hw
    simp only [Except.ok.injEq, Prod.mk.injEq] at h
    obtain ⟨rfl, rfl, rfl⟩ := h
    obtain ⟨-, ht, hoff, hsize⟩ := writeLoop_spec hw (Nat.zero_le n)
    obtain ⟨hg₁, hwr⟩ := writeLoop_good hg (Nat.zero_le n) (by omega) hw
    rw [Nat.add_zero, Nat.sub_zero] at hwr
    -- the size is not read by `view`
    have hview : ∀ o, view d₁ (if ip₁.size < off' then { ip₁ with size := off' } else ip₁) o =
        view d₁ ip₁ o := by
      intro o
      split_ifs <;> rfl
    refine .inr ⟨t, ht, rfl, ?_, ?_, fun o h₁ h₂ => ?_, fun o ho hout => ?_,
      fun o ho h₁ h₂ => ?_⟩
    · split_ifs with hlt
      · apply hg₁.setSize
        intro bn hbn
        by_cases hb : bn * bsize < ip₁.size
        · exact hg₁.full bn hb
        -- beyond the old size, the first byte of block `bn` is one the loop counted
        · have hm := (hwr.counted (bn * bsize) (by omega) (by omega)).1
          rwa [Nat.mul_div_cancel _ (by decide)] at hm
      · exact hg₁
    · split_ifs with hlt
      · show off' = _
        omega
      · rw [hsize]
        omega
    · rw [hview]
      exact (hwr.counted o h₁ (by omega)).2
    · rw [hview]
      exact hwr.outside o (hg.mapped_of_lt ho) hout
    · rw [hview]
      exact hwr.uncounted o (hg.mapped_of_lt ho) (by omega) h₂

/-! ### `readi` -/

/-- Every block below the size is in place, so the size is at most `MAXFILE` blocks. -/
theorem Good.size_le_maxFile (hg : Good d sb ip) : ip.size ≤ maxFile * bsize := by
  by_contra h
  exact lt_irrefl _ (hg.full maxFile (by omega)).1

/-- The loop of `readi` changes no byte of the file and keeps its blocks in order; it returns
`-1` or the count of the bytes, at most `n`. -/
theorem readLoop_good (hg : Good d sb ip) {dst n tot off : ℕ} {mem mem' : ℕ → UInt8} {r : ℤ}
    (ht : tot ≤ n) (hn : off + (n - tot) ≤ maxFile * bsize)
    (h : readLoop sb u dst n d ip mem tot off = .ok (d', ip', mem', r)) :
    Good d' sb ip' ∧ Grows d ip d' ip' ∧ ip'.size = ip.size ∧ (r = -1 ∨ (tot ≤ r ∧ r ≤ n)) := by
  fun_induction readLoop sb u dst n d ip mem tot off with
  | case1 => cases h
  | case2 d ip mem tot off hlt d₁ ip₁ hb =>
    simp only [Except.ok.injEq, Prod.mk.injEq] at h
    obtain ⟨rfl, rfl, -, rfl⟩ := h
    obtain ⟨hg₁, hgr, -⟩ := bmap_good hg (div_bsize_lt (by omega) hn) hb
    exact ⟨hg₁, hgr, bmap_size hb, .inr ⟨le_rfl, by exact_mod_cast ht⟩⟩
  -- `copyout` faults
  | case3 d ip mem tot off hlt d₁ ip₁ addr hb =>
    simp only [Except.ok.injEq, Prod.mk.injEq] at h
    obtain ⟨rfl, rfl, -, rfl⟩ := h
    obtain ⟨hg₁, hgr, -⟩ := bmap_good hg (div_bsize_lt (by omega) hn) hb
    exact ⟨hg₁, hgr, bmap_size hb, .inl rfl⟩
  | case4 d ip mem tot off hlt d₁ ip₁ addr hb haddr m c hc ih =>
    obtain ⟨hg₁, hgr, -⟩ := bmap_good hg (div_bsize_lt (by omega) hn) hb
    have hm : m = min (n - tot) (bsize - off % bsize) := rfl
    have hm0 : 0 < m := by
      have : off % bsize < bsize := Nat.mod_lt _ (by decide)
      omega
    obtain ⟨hg', hgr', hsize, hr⟩ := ih hg₁ (by omega) (by omega) h
    refine ⟨hg', hgr.trans hgr', hsize.trans (bmap_size hb), ?_⟩
    rcases hr with hr | ⟨h₁, h₂⟩
    · exact .inl hr
    · exact .inr ⟨by push_cast at h₁; omega, h₂⟩
  | case5 =>
    simp only [Except.ok.injEq, Prod.mk.injEq] at h
    obtain ⟨rfl, rfl, -, rfl⟩ := h
    exact ⟨hg, Grows.refl, rfl, .inr ⟨le_rfl, by exact_mod_cast ht⟩⟩

/-- `readi`'s loop over `m` bytes that lie within the file. -/
theorem readLoop_within (hg : Good d sb ip) {dst off m : ℕ} {mem mem' : ℕ → UInt8} {r : ℤ}
    (hm : off + m ≤ ip.size) (h : readLoop sb u dst m d ip mem 0 off = .ok (d', ip', mem', r)) :
    Good d' sb ip' ∧ Grows d ip d' ip' ∧ ip'.size = ip.size ∧
      (r ≤ 0 ∨ (0 < r ∧ off + r ≤ ip.size)) := by
  have hsz := hg.size_le_maxFile
  obtain ⟨hg', hgr, hsize, hr⟩ := readLoop_good hg (Nat.zero_le _) (by omega) h
  refine ⟨hg', hgr, hsize, ?_⟩
  by_cases hpos : 0 < r
  · rcases hr with rfl | ⟨-, hr⟩
    · exact absurd hpos (by decide)
    · exact .inr ⟨hpos, by omega⟩
  · exact .inl (by omega)

/-- `readi(ip, 1, dst, off, n)` changes no byte of the file and keeps its blocks in order; a
positive count it returns is of bytes below the size from `off`. -/
theorem readi_good (hg : Good d sb ip) {dst off n : ℕ} {mem' : ℕ → UInt8} {r : ℤ}
    (h : readi d sb ip u dst off n = .ok (d', ip', mem', r)) :
    Good d' sb ip' ∧ Grows d ip d' ip' ∧ ip'.size = ip.size ∧
      (r ≤ 0 ∨ (0 < r ∧ off + r ≤ ip.size)) := by
  unfold readi at h
  split_ifs at h with h1 h2
  · simp only [Except.ok.injEq, Prod.mk.injEq] at h
    obtain ⟨rfl, rfl, -, rfl⟩ := h
    exact ⟨hg, Grows.refl, rfl, .inl le_rfl⟩
  -- the count cut to the bytes up to the end, or the whole count within the file
  · exact readLoop_within hg (by omega) h
  · exact readLoop_within hg (by omega) h

/-- An inode with no blocks and size `0`, as `ialloc` and `itrunc` leave it, is in order on a
device whose bitmap marks its own blocks. -/
theorem Good.empty (hsb : sb.size ≤ 2 ^ 32) (hbm : BitmapMarked d sb) {ip : Inode}
    (hsize : ip.size = 0) (haddrs : ∀ j, ip.addrs j = 0) : Good d sb ip := by
  have hmapped : ∀ bn, ¬ ip.Mapped d bn := by
    rintro bn ⟨-, hb, hi⟩
    by_cases hbn : bn < nDirect
    · rw [Inode.blockOf, if_pos hbn, haddrs] at hb
      exact hb rfl
    · exact hi (Nat.le_of_not_lt hbn) (haddrs _)
  have hholds : ∀ b, ¬ ip.Holds d b := by
    rintro b (⟨bn, hm, -⟩ | ⟨hne, -⟩)
    · exact hmapped bn hm
    · exact hne (haddrs _)
  exact ⟨hsb, hbm, fun b hb => absurd hb (hholds b), fun b hb => absurd hb (hholds b),
    fun b hb => absurd hb (hholds b), fun bn _ hm => absurd hm (hmapped bn),
    fun bn hm => absurd hm (hmapped bn), fun bn h => absurd h (by rw [hsize]; omega)⟩

end Steps

end Xv6.Fs.Data
