import Xv6.Vm.Walk
import Xv6.Lib.Writes

/-!
# `copyout` and `copyin` (`kernel/vm.c`)

Both loops walk the user range page by page: the first chunk starts at the offset of the start
address in its page, every later one at a page boundary, and the last is cut to what is left.
Each page is looked up with `walkaddr`, which checks `PTE_V` and `PTE_U` only.

Physical memory holds bytes (`ℕ → UInt8`); the page-table pages are read through `PteMem`, kept
apart from the bytes `copyout` writes, as xv6 never maps a page-table page into user space.

* `copyout_eq_zero_iff`, `copyin_eq_zero_iff`: each returns 0 exactly when `walkaddr` accepts
  every page the loop visits (`pagesOf`);
* `copyout_writes_read_only`: `copyout` into a page mapped `PTE_V | PTE_R | PTE_X | PTE_U`
  without `PTE_W`, as `exec` maps text, succeeds and writes the page.
-/

namespace Xv6.Vm

theorem sub_pgrounddown_lt (a : ℕ) : a - pgrounddown a < pgSize := by
  have := Nat.mod_lt a (show 0 < pgSize by decide)
  have := Nat.mod_le a pgSize
  unfold pgrounddown
  omega

/-- `copyout(pagetable, dstva, src, len)`: its return value and the physical memory after it. -/
def copyout (m : PteMem) (pagetable : ℕ) (mem : ℕ → UInt8) (dstva : ℕ) (src : List UInt8)
    (len : ℕ) : ℤ × (ℕ → UInt8) :=
  if len = 0 then (0, mem)
  else if walkaddr m pagetable (pgrounddown dstva) = 0 then (-1, mem)
  else
    let va0 := pgrounddown dstva
    let pa0 := walkaddr m pagetable va0
    let n := min (pgSize - (dstva - va0)) len
    copyout m pagetable (Writes.apply mem (Writes.block (pa0 + (dstva - va0)) (src.take n)))
      ((va0 + pgSize) % 2 ^ 64) (src.drop n) (len - n)
termination_by len
decreasing_by
  have := sub_pgrounddown_lt dstva
  omega

/-- `copyin(pagetable, dst, srcva, len)`: its return value and the bytes it stores at `dst`,
in order (on failure, those of the pages before the failing one). -/
def copyin (m : PteMem) (pagetable : ℕ) (mem : ℕ → UInt8) (srcva len : ℕ) : ℤ × List UInt8 :=
  if len = 0 then (0, [])
  else if walkaddr m pagetable (pgrounddown srcva) = 0 then (-1, [])
  else
    let va0 := pgrounddown srcva
    let pa0 := walkaddr m pagetable va0
    let n := min (pgSize - (srcva - va0)) len
    let r := copyin m pagetable mem ((va0 + pgSize) % 2 ^ 64) (len - n)
    (r.1, (List.range n).map (fun k => mem (pa0 + (srcva - va0) + k)) ++ r.2)
termination_by len
decreasing_by
  have := sub_pgrounddown_lt srcva
  omega

/-- The pages the loops of `copyout` and `copyin` visit for the range of `len` bytes at `va`. -/
def pagesOf (va len : ℕ) : List ℕ :=
  if len = 0 then []
  else
    pgrounddown va ::
      pagesOf ((pgrounddown va + pgSize) % 2 ^ 64) (len - min (pgSize - (va - pgrounddown va)) len)
termination_by len
decreasing_by
  have := sub_pgrounddown_lt va
  omega

/-- `copyout` succeeds exactly when `walkaddr` accepts every page it visits: `PTE_W` plays no
part. -/
theorem copyout_eq_zero_iff (m : PteMem) (pagetable : ℕ) (mem : ℕ → UInt8) (dstva : ℕ)
    (src : List UInt8) (len : ℕ) :
    (copyout m pagetable mem dstva src len).1 = 0 ↔ ∀ a ∈ pagesOf dstva len, UserPage m pagetable a := by
  induction len using Nat.strong_induction_on generalizing mem dstva src with
  | _ len ih =>
    rw [copyout, pagesOf]
    by_cases hlen : len = 0
    · simp [hlen]
    · have hlt := sub_pgrounddown_lt dstva
      simp only [hlen, if_false]
      by_cases hw : walkaddr m pagetable (pgrounddown dstva) = 0
      · simp [hw, UserPage]
      · rw [if_neg hw, ih _ (by omega)]
        simp [UserPage, hw]

/-- `copyin` succeeds exactly when `walkaddr` accepts every page it visits. -/
theorem copyin_eq_zero_iff (m : PteMem) (pagetable : ℕ) (mem : ℕ → UInt8) (srcva len : ℕ) :
    (copyin m pagetable mem srcva len).1 = 0 ↔ ∀ a ∈ pagesOf srcva len, UserPage m pagetable a := by
  induction len using Nat.strong_induction_on generalizing srcva with
  | _ len ih =>
    rw [copyin, pagesOf]
    by_cases hlen : len = 0
    · simp [hlen]
    · have hlt := sub_pgrounddown_lt srcva
      simp only [hlen, if_false]
      by_cases hw : walkaddr m pagetable (pgrounddown srcva) = 0
      · simp [hw, UserPage]
      · rw [if_neg hw]
        simp only
        rw [ih _ (by omega)]
        simp [UserPage, hw]

/-! ### What `copyout` writes -/

/-- `copyout` writes only inside the physical pages `walkaddr` gives for the pages it visits. -/
theorem copyout_of_not_mem (m : PteMem) (pagetable : ℕ) (mem : ℕ → UInt8) (dstva : ℕ)
    (src : List UInt8) (len : ℕ) {x : ℕ}
    (hx : ∀ a ∈ pagesOf dstva len,
      x < walkaddr m pagetable a ∨ walkaddr m pagetable a + pgSize ≤ x) :
    (copyout m pagetable mem dstva src len).2 x = mem x := by
  induction len using Nat.strong_induction_on generalizing mem dstva src with
  | _ len ih =>
    rw [pagesOf] at hx
    rw [copyout]
    by_cases hlen : len = 0
    · simp [hlen]
    · have hoff := sub_pgrounddown_lt dstva
      simp only [hlen, if_false, List.mem_cons, forall_eq_or_imp] at hx ⊢
      split
      · rfl
      · rw [ih _ (by omega) _ _ _ hx.2]
        apply Writes.apply_block_of_lt_or_le
        -- the chunk is the first `n` bytes from the offset, inside the page
        have := List.length_take_le (min (pgSize - (dstva - pgrounddown dstva)) len) src
        omega

/-- Two page-aligned addresses that differ are a page apart. -/
theorem add_pgSize_le_of_ne {a b : ℕ} (ha : a % pgSize = 0) (hb : b % pgSize = 0) (hab : a ≠ b) :
    a + pgSize ≤ b ∨ b + pgSize ≤ a := by
  unfold pgSize at *
  omega

/-- `copyin` after a successful `copyout` of the same range reads back what `copyout` wrote,
when the pages of the range map to distinct physical pages. -/
theorem copyin_copyout (m : PteMem) (pagetable : ℕ) (mem : ℕ → UInt8) (dstva : ℕ)
    (src : List UInt8) (len : ℕ) (hsrc : len ≤ src.length)
    (hpages : ∀ a ∈ pagesOf dstva len, UserPage m pagetable a)
    (hnd : ((pagesOf dstva len).map (walkaddr m pagetable)).Nodup) :
    copyin m pagetable (copyout m pagetable mem dstva src len).2 dstva len = (0, src.take len) := by
  induction len using Nat.strong_induction_on generalizing mem dstva src with
  | _ len ih =>
    rw [pagesOf] at hpages hnd
    by_cases hlen : len = 0
    · simp [hlen, copyin]
    · have hoff := sub_pgrounddown_lt dstva
      simp only [hlen, if_false, List.mem_cons, forall_eq_or_imp, List.map_cons,
        List.nodup_cons, List.mem_map] at hpages hnd
      obtain ⟨hw, htail⟩ := hpages
      rw [copyout, if_neg hlen, if_neg hw, copyin, if_neg hlen, if_neg hw]
      simp only []
      set va0 := pgrounddown dstva
      set pa0 := walkaddr m pagetable va0
      set n := min (pgSize - (dstva - va0)) len with hn
      have hrest := ih (len - n) (by omega)
        (Writes.apply mem (Writes.block (pa0 + (dstva - va0)) (src.take n)))
        ((va0 + pgSize) % 2 ^ 64) (src.drop n) (by simp; omega) htail hnd.2
      -- the later pages are other physical pages, so the first chunk survives them
      have hchunk : ∀ k (hk : k < n), (copyout m pagetable
          (Writes.apply mem (Writes.block (pa0 + (dstva - va0)) (src.take n)))
          ((va0 + pgSize) % 2 ^ 64) (src.drop n) (len - n)).2 (pa0 + (dstva - va0) + k) =
          src[k]! := by
        intro k hk
        rw [copyout_of_not_mem]
        · rw [Writes.apply_block_add _ _ _ _ (by simp; omega)]
          simp [show k < src.length by omega]
        · intro a ha
          have hne : walkaddr m pagetable a ≠ pa0 := fun h => hnd.1 ⟨a, ha, h⟩
          rcases add_pgSize_le_of_ne (walkaddr_mod_pgSize m pagetable a)
            (walkaddr_mod_pgSize m pagetable va0) hne with h | h <;> omega
      rw [hrest, Prod.mk.injEq]
      refine ⟨rfl, ?_⟩
      have hread : (List.range n).map (fun k => (copyout m pagetable
          (Writes.apply mem (Writes.block (pa0 + (dstva - va0)) (src.take n)))
          ((va0 + pgSize) % 2 ^ 64) (src.drop n) (len - n)).2 (pa0 + (dstva - va0) + k)) =
          src.take n := by
        apply List.ext_getElem
        · simp only [List.length_map, List.length_range, List.length_take]
          omega
        · intro k hk _
          simp only [List.length_map, List.length_range] at hk
          simp only [List.getElem_map, List.getElem_range, List.getElem_take, hchunk k hk]
          simp [show k < src.length by omega]
      rw [hread, ← List.take_add, Nat.add_sub_cancel' (min_le_right _ _)]

/-! ### Text pages mapped by `exec` -/

/-- `flags2perm(flags)` of `kernel/exec.c`: the PTE permissions of an ELF segment. -/
def flags2perm (flags : ℕ) : ℕ :=
  let perm := if flags.testBit 0 then pteX else 0
  if flags.testBit 1 then perm ||| pteW else perm

/-- The leaf PTE of a page of an ELF segment: `uvmalloc` asks `mappages` for
`PTE_R | PTE_U | flags2perm(flags)`, and `mappages` adds `PTE_V`. -/
def segmentPte (pa flags : ℕ) : ℕ := mkPte pa (pteR ||| pteU ||| flags2perm flags ||| pteV)

/-- A segment page is user-writable exactly when its ELF flags have `PF_W`. -/
theorem pteWritable_segmentPte (pa flags : ℕ) :
    pteWritable (segmentPte pa flags) = flags.testBit 1 := by
  unfold pteWritable segmentPte flags2perm
  cases h0 : flags.testBit 0 <;> cases h1 : flags.testBit 1 <;>
    rw [testBit_mkPte _ (by decide) (by decide)] <;> decide

/-- A page table mapping virtual page 0 to the physical page `0x80000000` as `exec` maps a text
segment (ELF flags `PF_R | PF_X`), through page-table pages at `0x1000`, `0x2000`, `0x3000`. -/
def textPt : PteMem := fun a =>
  if a = 0x1000 then mkPte 0x2000 pteV
  else if a = 0x2000 then mkPte 0x3000 pteV
  else if a = 0x3000 then segmentPte 0x80000000 5
  else 0

/-- `copyout` to the read-only text page succeeds and overwrites it. -/
theorem copyout_writes_read_only :
    leafPte textPt 0x1000 0 = some (segmentPte 0x80000000 5) ∧
      pteWritable (segmentPte 0x80000000 5) = false ∧
      (copyout textPt 0x1000 (fun _ => 0) 0 [0x41] 1).1 = 0 ∧
      (copyout textPt 0x1000 (fun _ => 0) 0 [0x41] 1).2 0x80000000 = 0x41 := by
  have h0 : pgrounddown 0 = 0 := rfl
  have hw : walkaddr textPt 0x1000 0 = 0x80000000 := by decide
  refine ⟨by decide, pteWritable_segmentPte _ _, ?_⟩
  -- one page, one byte: the loop runs once
  rw [copyout, if_neg (by decide), h0, hw, if_neg (by decide)]
  simp only [Nat.sub_zero]
  rw [copyout]
  simp [pgSize, Writes.block, hw]

end Xv6.Vm
