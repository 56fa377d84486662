import Xv6.Param

/-!
# Sv39 page-table walks (`kernel/vm.c`, `kernel/riscv.h`)

A page-table page is 512 64-bit PTEs at a physical address; `walk` follows levels 2 and 1 by
the PTE's physical page number and returns the address of the level-0 PTE.  `walkaddr` adds the
checks the kernel makes before touching user memory: the address is below `MAXVA`, the leaf is
valid, and it is a user page.

Addresses and PTEs are natural numbers below `2^64`; the bit operations of `riscv.h` are the
corresponding arithmetic (`PX` a shift and mask, the flag tests `Nat.testBit`).  The PTEs are read
from `PteMem`, the 64-bit word at each physical address of a page-table page.
-/

namespace Xv6.Vm

/-- `PGROUNDDOWN(a)`: `a & ~(PGSIZE-1)`, the start of the page holding `a`. -/
def pgrounddown (a : ℕ) : ℕ := a - a % pgSize

/-- `PX(level, va)`: the 9-bit page-table index of `va` at `level`. -/
def px (level va : ℕ) : ℕ := va / 2 ^ (12 + 9 * level) % 512

/-- `PTE2PA(pte)`: the physical address a PTE points to, `(pte >> 10) << 12` in 64 bits. -/
def pte2pa (pte : ℕ) : ℕ := pte / 2 ^ 10 * 2 ^ 12 % 2 ^ 64

/-- `PA2PTE(pa) | flags`: a PTE for a page-aligned `pa`. -/
def mkPte (pa flags : ℕ) : ℕ := pa / 2 ^ 12 * 2 ^ 10 + flags

/-- `pte & PTE_V`. -/
def pteValid (pte : ℕ) : Bool := pte.testBit 0

/-- `pte & PTE_W`. -/
def pteWritable (pte : ℕ) : Bool := pte.testBit 2

/-- `pte & PTE_U`. -/
def pteUser (pte : ℕ) : Bool := pte.testBit 4

/-- The 64-bit PTE stored at each physical address of a page-table page. -/
abbrev PteMem := ℕ → ℕ

/-- The loop of `walk` from `level` down: at each level above 0 follow a valid PTE, or stop
(`alloc == 0`).  The result is the address of the level-0 PTE. -/
def walkFrom (m : PteMem) : ℕ → ℕ → ℕ → Option ℕ
  | 0, pagetable, va => some (pagetable + 8 * px 0 va)
  | level + 1, pagetable, va =>
    if pteValid (m (pagetable + 8 * px (level + 1) va)) then
      walkFrom m level (pte2pa (m (pagetable + 8 * px (level + 1) va))) va
    else none

/-- `walk(pagetable, va, 0)`; its callers keep `va < MAXVA`. -/
def walk (m : PteMem) (pagetable va : ℕ) : Option ℕ := walkFrom m 2 pagetable va

/-- `walkaddr(pagetable, va)`: the physical page of a valid user leaf, or `0`. -/
def walkaddr (m : PteMem) (pagetable va : ℕ) : ℕ :=
  if maxVa ≤ va then 0
  else
    match walk m pagetable va with
    | none => 0
    | some a => if !pteValid (m a) then 0 else if !pteUser (m a) then 0 else pte2pa (m a)

/-- The leaf PTE of `va`, when `walk` reaches one. -/
def leafPte (m : PteMem) (pagetable va : ℕ) : Option ℕ := (walk m pagetable va).map m

/-- A user page `walkaddr` accepts: below `MAXVA`, its leaf valid and `PTE_U`, and not at
physical address 0 (which `walkaddr` cannot tell from failure). -/
def UserPage (m : PteMem) (pagetable va : ℕ) : Prop := walkaddr m pagetable va ≠ 0

/-- What `walkaddr` accepts, in terms of the leaf PTE. -/
theorem walkaddr_ne_zero_iff (m : PteMem) (pagetable va : ℕ) :
    walkaddr m pagetable va ≠ 0 ↔ va < maxVa ∧ ∃ pte, leafPte m pagetable va = some pte ∧
      pteValid pte = true ∧ pteUser pte = true ∧ pte2pa pte ≠ 0 := by
  unfold walkaddr leafPte
  by_cases hva : maxVa ≤ va
  · simp [hva]
  · have hlt : va < maxVa := Nat.lt_of_not_le hva
    simp only [hva, if_false, hlt, true_and]
    cases walk m pagetable va with
    | none => simp
    | some a =>
      simp only [Option.map_some, Option.some.injEq, exists_eq_left']
      cases hv : pteValid (m a) <;> cases hu : pteUser (m a) <;> simp

/-- The low ten bits of a PTE built by `mappages` are its flags. -/
theorem testBit_mkPte (pa : ℕ) {flags i : ℕ} (hf : flags < 2 ^ 10) (hi : i < 10) :
    (mkPte pa flags).testBit i = flags.testBit i := by
  rw [mkPte, Nat.mul_comm, Nat.testBit_two_pow_mul_add _ hf, if_pos hi]

/-- Physical pages are page-aligned: `PTE2PA` clears the low 12 bits. -/
theorem pte2pa_mod_pgSize (pte : ℕ) : pte2pa pte % pgSize = 0 := by
  unfold pte2pa pgSize
  rw [Nat.mod_mod_of_dvd _ (by decide)]
  exact Nat.mul_mod_left _ _

theorem walkaddr_mod_pgSize (m : PteMem) (pagetable va : ℕ) : walkaddr m pagetable va % pgSize = 0 := by
  unfold walkaddr
  split
  · rfl
  · split
    · rfl
    · split
      · rfl
      · split
        · rfl
        · exact pte2pa_mod_pgSize _

end Xv6.Vm
