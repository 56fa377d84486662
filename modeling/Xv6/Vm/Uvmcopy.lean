import Mathlib
import Xv6.Vm.Uvm

/-!
# Copying a process's memory (`uvmcopy` in `kernel/vm.c`)

`fork` gives the child a copy of the parent's memory with `uvmcopy(old, new, sz)`: for each page
below `sz` it takes a page of `kalloc`, copies the parent's page into it and maps it in the
child's table with the parent's flags.  When memory runs out it unmaps and frees the pages it
mapped (`err:`) and returns `-1`.

* `CopySource`: what `uvmcopy` asks of the parent: a tree whose pages below `sz` are mapped by
  leaves, apart from the child's tree and from the free list;
* `uvmcopyLoop_step` and `uvmcopyLoop_run`: one page and the whole loop, with the ledger
  `Allocated` of `Xv6.Vm.Uvm` whose page `j` holds the words of the parent's page `j`;
* `uvmcopy_spec`: on such a parent `uvmcopy` never panics; it returns `0` with each page copied
  and mapped with the parent's flags, or `-1` with the child's map as it was; the parent's map and
  pages are unchanged either way.
-/

namespace Xv6.Vm

/-- `err:` of `uvmcopy`: unmap and free the `i / PGSIZE` pages mapped so far; the result is `-1`. -/
def uvmcopyErr (new i : ℕ) (k : Kmem) : Except String (ℤ × Kmem) := do
  let k ← uvmunmap k new 0 (i / pgSize) true
  pure (-1, k)

/-- The loop of `uvmcopy(old, new, sz)` from `i` while below `sz`: page `i` of `old` must have a
valid leaf; a page of `kalloc` gets its words and is mapped at `i` in `new` with its flags. -/
def uvmcopyLoop (old new sz : ℕ) (k : Kmem) (i : ℕ) : Except String (ℤ × Kmem) :=
  if i < sz then
    if maxVa ≤ i then .error "walk"
    else
      match walk k.m old i with
      | none => .error "uvmcopy: pte should exist"
      | some pte =>
        if pteValid (k.m pte) = false then .error "uvmcopy: page not present"
        else
          let pa := pte2pa (k.m pte)
          let flags := k.m pte % 2 ^ 10
          let (mem, k) := kalloc k
          if mem = 0 then uvmcopyErr new i k
          else
            match mappages (k.movePage mem pa) new i pgSize mem flags with
            | .error e => .error e
            | .ok (r, k) =>
              if r ≠ 0 then do
                let k ← kfree k mem
                uvmcopyErr new i k
              else uvmcopyLoop old new sz k (i + pgSize)
  else .ok (0, k)
termination_by sz - i
decreasing_by unfold pgSize; omega

/-- `uvmcopy(old, new, sz)`: `0`, or `-1` when memory runs out. -/
def uvmcopy (k : Kmem) (old new sz : ℕ) : Except String (ℤ × Kmem) := uvmcopyLoop old new sz k 0

/-- What `uvmcopy` asks of the parent's table `old` for its first `n` pages: a tree whose page `j`
is mapped by a leaf to `opa j` with the flags `ofl j`, more than `PTE_V`; neither its tables nor
those pages are tables of the child's tree `new` or free. -/
structure CopySource (k : Kmem) (old new : ℕ) (opa ofl : ℕ → ℕ) (n : ℕ) : Prop where
  tree : Tree k.m old
  tables : ∀ t, IsTable k.m old t → ¬ IsTable k.m new t ∧ t ∉ k.free
  map : ∀ j < n, lookup k.m old j = some (opa j, ofl j)
  leaf : ∀ j < n, ofl j ≠ pteV
  data : ∀ j < n, ¬ IsTable k.m new (opa j) ∧ opa j ∉ k.free

variable {k k' k₀ : Kmem} {old new : ℕ} {opa ofl : ℕ → ℕ}

/-- The flags of a valid PTE have `PTE_V` set. -/
theorem flags_or_pteV {pte : ℕ} (hv : pteValid pte = true) : pte % 2 ^ 10 ||| pteV = pte % 2 ^ 10 := by
  apply Nat.eq_of_testBit_eq
  intro i
  rw [Nat.testBit_or]
  rcases Nat.eq_zero_or_pos i with rfl | hi
  · -- bit 0: `PTE_V`, set on both sides
    have h1 : (pte % 2 ^ 10).testBit 0 = true := by
      rw [Nat.testBit_mod_two_pow]; simpa [pteValid] using hv
    rw [h1, Bool.true_or]
  · have h0 : pteV.testBit i = false := by
      rw [pteV, Nat.testBit_eq_false_of_lt]; exact Nat.one_lt_two_pow hi.ne'
    rw [h0, Bool.or_false]

namespace CopySource

variable {n : ℕ}

theorem mono (hs : CopySource k old new opa ofl n) {m : ℕ} (hm : m ≤ n) :
    CopySource k old new opa ofl m :=
  ⟨hs.tree, hs.tables, fun j hj => hs.map j (by omega), fun j hj => hs.leaf j (by omega),
    fun j hj => hs.data j (by omega)⟩

theorem aligned (hs : CopySource k old new opa ofl n) {j : ℕ} (hj : j < n) : opa j % pgSize = 0 := by
  obtain ⟨pte, -, -, hpa, -⟩ := lookup_eq_some (hs.map j hj)
  rw [← hpa]
  exact pte2pa_mod_pgSize _

/-- What changes only tables of the child's tree and pages of the free list keeps the parent's
map and the parent's pages. -/
theorem keep (hs : CopySource k₀ old new opa ofl n)
    (hf : k₀.Frame k fun x => IsTable k₀.m new x ∨ x ∈ k₀.free) :
    lookup k.m old = lookup k₀.m old ∧
      ∀ j < n, ∀ off < pgSize, k.m (opa j + off) = k₀.m (opa j + off) := by
  refine ⟨lookup_frame hs.tree hf fun t ht hS => ?_, fun j hj off hoff => hf _ ?_⟩
  · exact hS.elim (hs.tables t ht).1 (hs.tables t ht).2
  · rw [pgrounddown_of_lt (hs.aligned hj) (Nat.le_add_right _ _) (by omega)]
    exact fun hS => hS.elim (hs.data j hj).1 (hs.data j hj).2

end CopySource

/-! ### The loop -/

/-- One page of `uvmcopy`'s loop from a state of the ledger: memory runs out and the child's pages
are unmapped and freed, or the parent's page `c` is copied and mapped and the loop goes on. -/
theorem uvmcopyLoop_step {sz c : ℕ} {pas : ℕ → ℕ} {l : List ℕ} (hk0 : PtOk k₀ new)
    (hs : CopySource k₀ old new opa ofl (c + 1))
    (hA : Allocated new 0 ofl (fun j off => k₀.m (opa j + off)) k₀ k pas l c)
    (hlt : c * pgSize < sz) (hmax : (c + 1) * pgSize ≤ maxVa)
    (hnone : ∀ w < c + 1, lookup k₀.m new w = none) :
    (∃ k', uvmcopyLoop old new sz k (c * pgSize) = .ok (-1, k') ∧ ∃ l', RolledBack new k₀ k' l') ∨
    ∃ k₁ pas' l', Allocated new 0 ofl (fun j off => k₀.m (opa j + off)) k₀ k₁ pas' l' (c + 1) ∧
      uvmcopyLoop old new sz k (c * pgSize) = uvmcopyLoop old new sz k₁ ((c + 1) * pgSize) := by
  have hal : (0 : ℕ) % pgSize = 0 := Nat.zero_mod _
  have hmax' : 0 + (c + 1) * pgSize ≤ maxVa := by rw [Nat.zero_add]; exact hmax
  have hmaxc : 0 + c * pgSize ≤ maxVa := by
    rw [Nat.zero_add]; exact le_trans (Nat.mul_le_mul_right _ (Nat.le_succ c)) hmax
  have hva : ¬ maxVa ≤ c * pgSize := by unfold pgSize at hmax ⊢; omega
  have hdiv : c * pgSize / pgSize = c := Nat.mul_div_cancel _ (by unfold pgSize; omega)
  have hnone' : ∀ w, 0 / pgSize ≤ w → w < 0 / pgSize + c → lookup k₀.m new w = none :=
    fun w _ h₂ => hnone w (by rw [Nat.zero_div, Nat.zero_add] at h₂; omega)
  have hfl : ∀ j < c, ofl j ≠ pteV := fun j hj => hs.leaf j (by omega)
  -- the parent's page `c` is where `k₀` had it, with the words it had
  obtain ⟨hlk, hdata⟩ := hs.keep hA.frame
  have hlc : lookup k.m old c = some (opa c, ofl c) := by rw [hlk]; exact hs.map c (by omega)
  obtain ⟨pte, hw, hv, hpa, hfl₀⟩ := lookup_eq_some hlc
  rw [uvmcopyLoop, if_pos hlt, if_neg hva, hw]
  simp only [hv, Bool.true_eq_false, ↓reduceIte, hpa, hfl₀]
  rcases kalloc_spec hA.ok.ok with ⟨-, h0⟩ | ⟨p, rest, hf, hp0, -, -, hkp⟩
  · -- `kalloc` fails: `err:`
    obtain ⟨k', hd, hrb⟩ := hA.unmapAll hk0 hal hmaxc hfl hnone'
    refine .inl ⟨k', ?_, l, hrb⟩
    simp only [h0, ↓reduceIte, uvmcopyErr, hdiv, hd, bind, Except.bind, pure, Except.pure]
  have hpg : k.Page p := hA.ok.ok.page p (by rw [hf]; exact List.mem_cons_self)
  have hne : opa c ≠ p := fun h =>
    (hs.data c (by omega)).2 (h ▸ hA.mem_free (.inr (.inr (by rw [hf]; exact List.mem_cons_self))))
  have hfr₂ : k.Frame (({ k with free := rest }.memset p 5).movePage p (opa c)) (· = p) :=
    fun a ha => (((frame_memset { k with free := rest } hpg.aligned 5).trans
      (frame_movePage _ hpg.aligned (opa c))).mono fun x hx => by
        rcases hx with hx | hx <;> exact hx) a ha
  have himg : ∀ off < pgSize,
      (({ k with free := rest }.memset p 5).movePage p (opa c)).m (p + off) = k₀.m (opa c + off) := by
    intro off hoff
    have hb : pgrounddown (opa c + off) = opa c :=
      pgrounddown_of_lt (hs.aligned (by omega)) (Nat.le_add_right _ _) (by omega)
    rw [Kmem.movePage_m _ _ _ hoff, frame_memset _ hpg.aligned 5 _ (by rw [hb]; exact hne)]
    exact hdata c (by omega) off hoff
  have hperm : ofl c < 2 ^ 10 := by rw [← hfl₀]; exact Nat.mod_lt _ (by decide)
  have hflag : ofl c ||| pteV = ofl c := by rw [← hfl₀]; exact flags_or_pteV hv
  have hnc : lookup k₀.m new (0 / pgSize + c) = none := by
    rw [Nat.zero_div, Nat.zero_add]; exact hnone c (by omega)
  simp only [hkp, if_neg hp0.ne']
  rcases hA.mapPage hk0 hal hmax' hnc hf hfr₂ rfl rfl himg hperm hflag with
    ⟨k₃, k₄, l₁, hrun, hk₄, hA₄⟩ | ⟨k₃, l₁, hrun, hA₃⟩
  · -- `mappages` ran out of memory in `walk`: free the page, then `err:`
    obtain ⟨k', hd, hrb⟩ := hA₄.unmapAll hk0 hal hmaxc hfl hnone'
    refine .inl ⟨k', ?_, l ++ l₁, hrb⟩
    rw [Nat.zero_add] at hrun
    rw [hrun]
    simp only [ne_eq, Int.reduceNeg, Int.neg_ne_zero, one_ne_zero, not_false_eq_true, ↓reduceIte]
    rw [hk₄]
    simp only [uvmcopyErr, hdiv, hd, bind, Except.bind, pure, Except.pure]
  · -- the copy is mapped: the loop goes on with one more page in the ledger
    refine .inr ⟨k₃, _, _, hA₃, ?_⟩
    rw [Nat.zero_add] at hrun
    rw [hrun, show (c + 1) * pgSize = c * pgSize + pgSize by ring]
    simp only [ne_eq, not_true_eq_false, ↓reduceIte]

/-- The rest of `uvmcopy`'s loop from a state of the ledger with `c` of its `N` pages copied: it
copies all `N`, or runs out of memory and rolls back. -/
theorem uvmcopyLoop_run {sz N : ℕ} (hk0 : PtOk k₀ new) (hs : CopySource k₀ old new opa ofl N)
    (hmax : N * pgSize ≤ maxVa) (hN : sz ≤ N * pgSize) (hN' : N * pgSize < sz + pgSize)
    (hnone : ∀ w < N, lookup k₀.m new w = none) :
    ∀ n c (pas : ℕ → ℕ) (l : List ℕ) (k : Kmem), c + n = N →
      Allocated new 0 ofl (fun j off => k₀.m (opa j + off)) k₀ k pas l c →
      ∃ r k', uvmcopyLoop old new sz k (c * pgSize) = .ok (r, k') ∧
        ((r = 0 ∧ ∃ pas' l', Allocated new 0 ofl (fun j off => k₀.m (opa j + off)) k₀ k' pas' l' N) ∨
          (r = -1 ∧ ∃ l', RolledBack new k₀ k' l')) := by
  intro n
  induction n with
  | zero =>
    intro c pas l k hc hA
    rw [Nat.add_zero] at hc
    subst hc
    exact ⟨0, k, by rw [uvmcopyLoop, if_neg (by omega)], .inl ⟨rfl, pas, l, hA⟩⟩
  | succ n ih =>
    intro c pas l k hc hA
    have hlt : c * pgSize < sz := by unfold pgSize at *; nlinarith
    have hmax' : (c + 1) * pgSize ≤ maxVa := le_trans (Nat.mul_le_mul_right _ (by omega)) hmax
    rcases uvmcopyLoop_step hk0 (hs.mono (by omega)) hA hlt hmax' fun w hw => hnone w (by omega) with
      ⟨k', hrun, l', hrb⟩ | ⟨k₁, pas', l', hA₁, hrun⟩
    · exact ⟨-1, k', hrun, .inr ⟨rfl, l', hrb⟩⟩
    · obtain ⟨r, k', hrun', hres⟩ := ih (c + 1) pas' l' k₁ (by omega) hA₁
      exact ⟨r, k', hrun.trans hrun', hres⟩

/-- `uvmcopy(old, new, sz)` with `sz <= MAXVA`, from a parent whose pages below `sz` are mapped by
leaves into a child whose pages there are unmapped, never panics: it returns `0` with each page
`j` of the child mapped, with the parent's flags, to a page off the free list holding the words of
the parent's page `j`; or, when memory runs out, `-1` with the child's map as it was and every page
it took back on the free list but the new tables.  The parent's map and pages are left as they
were. -/
theorem uvmcopy_spec {sz : ℕ} (h : PtOk k new) (hsz : sz ≤ maxVa)
    (hs : CopySource k old new opa ofl (pgroundup sz / pgSize))
    (hnone : ∀ w < pgroundup sz / pgSize, lookup k.m new w = none) :
    ∃ r k', uvmcopy k old new sz = .ok (r, k') ∧ lookup k'.m old = lookup k.m old ∧
      (∀ j < pgroundup sz / pgSize, ∀ off < pgSize, k'.m (opa j + off) = k.m (opa j + off)) ∧
      ((r = 0 ∧ ∃ pas l, Allocated new 0 ofl (fun j off => k.m (opa j + off)) k k' pas l
          (pgroundup sz / pgSize)) ∨
        (r = -1 ∧ ∃ l, RolledBack new k k' l)) := by
  have hend : pgroundup sz / pgSize * pgSize = pgroundup sz :=
    Nat.div_mul_cancel (Nat.dvd_of_mod_eq_zero (pgroundup_mod hsz))
  have hN : sz ≤ pgroundup sz / pgSize * pgSize := by rw [hend]; exact le_pgroundup hsz
  have hN' : pgroundup sz / pgSize * pgSize < sz + pgSize := by rw [hend]; exact pgroundup_lt hsz
  obtain ⟨r, k', hrun, hres⟩ := uvmcopyLoop_run h hs (by rw [hend]; exact pgroundup_le hsz)
    hN hN' hnone _ 0 (fun _ => 0) [] k (Nat.zero_add _) (Allocated.start h _ _ _ _)
  have hfr : k.Frame k' fun x => IsTable k.m new x ∨ x ∈ k.free := by
    rcases hres with ⟨-, pas, l, hA⟩ | ⟨-, l, hrb⟩
    · exact hA.frame
    · exact hrb.frame
  obtain ⟨hlk, hdata⟩ := hs.keep hfr
  exact ⟨r, k', by rw [uvmcopy, ← hrun, Nat.zero_mul], hlk, hdata, hres⟩


/-- `uvmcopy` of size 0 between the two empty trees of `bootKmem`. -/
example :
    ∃ r k', uvmcopy bootKmem kernbase (kernbase + 0x1000) 0 = .ok (r, k') ∧
      lookup k'.m kernbase = lookup bootKmem.m kernbase := by
  have h0 : pgroundup 0 / pgSize = 0 := by decide
  have hs : CopySource bootKmem kernbase (kernbase + 0x1000) (fun _ => 0) (fun _ => 0)
      (pgroundup 0 / pgSize) := by
    rw [h0]
    refine ⟨(bootKmem_ptOk (.inl rfl)).tree, fun t ht => ?_, fun j hj => absurd hj (Nat.not_lt_zero j),
      fun j hj => absurd hj (Nat.not_lt_zero j), fun j hj => absurd hj (Nat.not_lt_zero j)⟩
    rw [isTable_empty (fun i _ => bootKmem_entry _ i)] at ht
    subst ht
    exact ⟨by rw [isTable_empty (fun i _ => bootKmem_entry _ i)]; decide, by decide⟩
  obtain ⟨r, k', hrun, hlk, -⟩ := uvmcopy_spec (bootKmem_ptOk (.inr rfl)) (Nat.zero_le _) hs
    fun w _ => bootKmem_lookup _ w
  exact ⟨r, k', hrun, hlk⟩
end Xv6.Vm
