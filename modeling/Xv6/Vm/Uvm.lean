import Mathlib
import Xv6.Vm.Map

/-!
# User address spaces (`uvmcreate`, `uvmalloc`, `uvmdealloc` of `kernel/vm.c`)

A process's memory is a page table whose map covers its pages `[0, PGROUNDUP(sz))`.
`uvmcreate` makes an empty table, `uvmalloc` maps fresh zeroed pages up to a new size and
`uvmdealloc` unmaps and frees those above one.

* `uvmcreate_spec`: a zeroed page off the free list is an empty tree;
* `uvmdealloc_run`: `uvmdealloc` is `uvmunmap` of the pages between the two sizes, freeing them;
* `Allocated`, `RolledBack`: what `uvmalloc` leaves when it succeeds, and when it runs out of
  memory and undoes what it mapped; `uvmalloc_spec` says it always leaves one of the two.
-/

namespace Xv6.Vm

/-- `PGROUNDUP(sz)`: `(sz + PGSIZE - 1) & ~(PGSIZE - 1)` in 64 bits. -/
def pgroundup (sz : ℕ) : ℕ := pgrounddown ((sz + pgSize - 1) % 2 ^ 64)

/-- `uvmcreate()`: a zeroed page for an empty page table, or `0` when memory is out. -/
def uvmcreate (k : Kmem) : ℕ × Kmem :=
  let (pagetable, k) := kalloc k
  if pagetable = 0 then (0, k) else (pagetable, k.memset pagetable 0)

/-- `(uint64)(int)x`: a 64-bit count through the `int npages` of `uvmdealloc` and back. -/
def sext32 (x : ℕ) : ℕ := if x % 2 ^ 32 < 2 ^ 31 then x % 2 ^ 32 else x % 2 ^ 32 + (2 ^ 64 - 2 ^ 32)

/-- `uvmdealloc(pagetable, oldsz, newsz)`: the new size, after unmapping and freeing the pages
between `PGROUNDUP(newsz)` and `PGROUNDUP(oldsz)`; `oldsz` itself when `newsz >= oldsz`. -/
def uvmdealloc (k : Kmem) (pagetable oldsz newsz : ℕ) : Except String (ℕ × Kmem) :=
  if oldsz ≤ newsz then .ok (oldsz, k)
  else if pgroundup newsz < pgroundup oldsz then
    let npages := sext32 ((pgroundup oldsz - pgroundup newsz) / pgSize)
    (uvmunmap k pagetable (pgroundup newsz) npages true).map fun k => (newsz, k)
  else .ok (newsz, k)

/-- The loop of `uvmalloc` from page `a` up to `newsz`, with `oldsz` already rounded up: a
zeroed page from `kalloc` mapped at each page with `PTE_R | PTE_U | xperm`; when `kalloc` or
`mappages` fails, the page is freed, the pages mapped so far are deallocated and the result is
`0`.  The loop goes on only after `mappages` succeeded, so below `MAXVA`, where `a + PGSIZE`
does not wrap. -/
def uvmallocLoop (pagetable oldsz newsz xperm : ℕ) (k : Kmem) (a : ℕ) :
    Except String (ℕ × Kmem) :=
  if a < newsz then
    let (mem, k) := kalloc k
    if mem = 0 then do
      let (_, k) ← uvmdealloc k pagetable a oldsz
      pure (0, k)
    else
      match mappages (k.memset mem 0) pagetable a pgSize mem (pteR ||| pteU ||| xperm) with
      | .error e => .error e
      | .ok (r, k) =>
        if r ≠ 0 then do
          let k ← kfree k mem
          let (_, k) ← uvmdealloc k pagetable a oldsz
          pure (0, k)
        else uvmallocLoop pagetable oldsz newsz xperm k (a + pgSize)
  else .ok (newsz, k)
termination_by newsz - a
decreasing_by unfold pgSize; omega

/-- `uvmalloc(pagetable, oldsz, newsz, xperm)`: the new size, or `0` when memory ran out. -/
def uvmalloc (k : Kmem) (pagetable oldsz newsz xperm : ℕ) : Except String (ℕ × Kmem) :=
  if newsz < oldsz then .ok (oldsz, k)
  else uvmallocLoop pagetable (pgroundup oldsz) newsz xperm k (pgroundup oldsz)

variable {k k' k₀ : Kmem} {root : ℕ}

/-! ### Sizes -/

theorem pgroundup_eq {sz : ℕ} (h : sz ≤ maxVa) : pgroundup sz = (sz + pgSize - 1) / pgSize * pgSize := by
  have : (sz + pgSize - 1) % 2 ^ 64 = sz + pgSize - 1 :=
    Nat.mod_eq_of_lt (by unfold maxVa pgSize at *; omega)
  rw [pgroundup, this, pgrounddown_eq]

theorem pgroundup_mod {sz : ℕ} (h : sz ≤ maxVa) : pgroundup sz % pgSize = 0 := by
  rw [pgroundup_eq h, Nat.mul_mod_left]

theorem pgroundup_le {sz : ℕ} (h : sz ≤ maxVa) : pgroundup sz ≤ maxVa := by
  rw [pgroundup_eq h]
  unfold maxVa pgSize at *
  omega

theorem le_pgroundup {sz : ℕ} (h : sz ≤ maxVa) : sz ≤ pgroundup sz := by
  rw [pgroundup_eq h]
  unfold pgSize
  omega

theorem pgroundup_of_mod {sz : ℕ} (h : sz ≤ maxVa) (hs : sz % pgSize = 0) : pgroundup sz = sz := by
  rw [pgroundup_eq h]
  unfold pgSize at *
  omega

theorem pgroundup_mono {a b : ℕ} (hab : a ≤ b) (hb : b ≤ maxVa) : pgroundup a ≤ pgroundup b := by
  rw [pgroundup_eq hb, pgroundup_eq (hab.trans hb)]
  exact Nat.mul_le_mul_right _ (Nat.div_le_div_right (by omega))

theorem pgroundup_lt {sz : ℕ} (h : sz ≤ maxVa) : pgroundup sz < sz + pgSize := by
  rw [pgroundup_eq h]
  unfold pgSize
  omega

theorem sext32_of_lt {x : ℕ} (h : x < 2 ^ 31) : sext32 x = x := by
  rw [sext32, Nat.mod_eq_of_lt (by omega), if_pos h]

/-! ### `uvmcreate` -/

/-- `uvmcreate()` on an allocator in order: `0` with nothing changed when the free list is
empty, otherwise its head, off the list, zeroed: an empty tree with no page mapped. -/
theorem uvmcreate_spec (hk : k.Ok) :
    (k.free = [] ∧ uvmcreate k = (0, k)) ∨
      ∃ p k', uvmcreate k = (p, k') ∧ 0 < p ∧ k.free = p :: k'.free ∧ k'.kend = k.kend ∧
        PtOk k' p ∧ (∀ x, IsTable k'.m p x ↔ x = p) ∧ (∀ w, lookup k'.m p w = none) ∧
        k.Frame k' (· = p) := by
  rcases kalloc_spec hk with ⟨hf, h0⟩ | ⟨p, rest, hf, hp0, hpg, hpr, hkp⟩
  · exact .inl ⟨hf, by simp only [uvmcreate, h0, if_true]⟩
  right
  set k' := ({ k with free := rest }.memset p 5).memset p 0 with hk'
  have hz : ∀ i < 512, pteValid (entry k'.m p i) = false := by
    intro i hi
    rw [entry, hk', Kmem.memset_m, if_pos ⟨by omega, by unfold pgSize; omega⟩]
    rfl
  have hok : k'.Ok := (hk.pop hf 5).congr rfl rfl
  have hfr : k.Frame k' (· = p) := fun a ha =>
    (((frame_memset { k with free := rest } hpg.aligned 5).trans
      (frame_memset _ hpg.aligned 0)).mono fun x hx => by rcases hx with hx | hx <;> exact hx) a ha
  refine ⟨p, k', by simp only [uvmcreate, hkp, if_neg hp0.ne', hk'], hp0, hf, rfl,
    PtOk.empty hok (hpg.congr rfl) hpr hz, isTable_empty hz, lookup_empty hz, hfr⟩


/-- `uvmcreate` on `bootKmem`, whose free list is not empty. -/
example : ∃ p k', uvmcreate bootKmem = (p, k') ∧ 0 < p ∧ PtOk k' p := by
  rcases uvmcreate_spec bootKmem_ok with ⟨hf, -⟩ | ⟨p, k', h, hp, -, -, hok, -⟩
  · exact absurd hf (by decide)
  · exact ⟨p, k', h, hp, hok⟩
/-! ### `uvmdealloc` -/

/-- `uvmdealloc(pagetable, oldsz, newsz)` with `newsz < oldsz <= MAXVA`, when the pages between
the two rounded-up sizes are mapped and can be freed: they are unmapped and freed in order, and
the result is `newsz`. -/
theorem uvmdealloc_run {oldsz newsz : ℕ} (pas : ℕ → ℕ) (h : PtOk k root) (hlt : newsz < oldsz)
    (hmax : oldsz ≤ maxVa)
    (hmap : MappedRun k.m root pas (pgroundup newsz / pgSize)
      ((pgroundup oldsz - pgroundup newsz) / pgSize))
    (hfree : Freeable k root pas ((pgroundup oldsz - pgroundup newsz) / pgSize)) :
    ∃ k', uvmdealloc k root oldsz newsz = .ok (newsz, k') ∧
      Unmapped root k k' true pas (pgroundup newsz / pgSize)
        ((pgroundup oldsz - pgroundup newsz) / pgSize) := by
  have hnu := pgroundup_mod (hlt.le.trans hmax)
  have hou := pgroundup_mod hmax
  have hle := pgroundup_le hmax
  have hmono := pgroundup_mono hlt.le hmax
  have hend : pgroundup newsz + (pgroundup oldsz - pgroundup newsz) / pgSize * pgSize =
      pgroundup oldsz := by
    unfold pgSize at *; omega
  have hbound : pgroundup newsz + (pgroundup oldsz - pgroundup newsz) / pgSize * pgSize ≤ maxVa := by
    rw [hend]; exact hle
  by_cases hp : pgroundup newsz < pgroundup oldsz
  · have hn31 : (pgroundup oldsz - pgroundup newsz) / pgSize < 2 ^ 31 := by
      unfold maxVa pgSize at *; omega
    obtain ⟨k', hrun, hu⟩ := uvmunmapLoop_run _ pas k _ h hnu hbound le_rfl hmap
      fun _ => hfree
    refine ⟨k', ?_, hu⟩
    rw [uvmdealloc, if_neg (by omega), if_pos hp, sext32_of_lt hn31]
    dsimp only
    rw [uvmunmap_eq hnu hbound, hrun, uvmunmapLoop_done _ (lt_irrefl _)]
    rfl
  · have hn0 : (pgroundup oldsz - pgroundup newsz) / pgSize = 0 := by
      rw [Nat.sub_eq_zero_of_le (Nat.le_of_not_lt hp), Nat.zero_div]
    rw [hn0]
    exact ⟨k, by rw [uvmdealloc, if_neg (by omega), if_neg hp], Unmapped.zero h true pas _⟩

/-! ### `uvmalloc` -/

/-- One page of `mappages`: its loop at that page alone. -/
theorem mappages_page {a pa perm : ℕ} (ha : a % pgSize = 0) (hmax : a < maxVa) :
    mappages k root a pgSize pa perm = mappagesLoop root a perm k a pa := by
  have hlast : pgrounddown ((a + pgSize - 1) % 2 ^ 64) = a := by
    rw [Nat.mod_eq_of_lt (by unfold maxVa pgSize at *; omega)]
    unfold pgrounddown pgSize at *
    omega
  have ha' : pgrounddown a = a := by unfold pgrounddown; omega
  rw [mappages, if_neg (by unfold pgSize; omega), hlast, ha']


/-- `mappages` of one unmapped page of a tree in order: `-1` with the free list empty and the map
as it was, or `0` with the page mapped to `PGROUNDDOWN(pa)` with the flags `perm | PTE_V`; either
way the tree grew by tables off the head of the free list. -/
theorem mappages_one {a pa perm : ℕ} (h : PtOk k root) (hperm : perm < 2 ^ 10)
    (ha : a % pgSize = 0) (hmax : a < maxVa) (hpa : pa < 2 ^ 64)
    (hfree : lookup k.m root (a / pgSize) = none) :
    ∃ r k' l, mappages k root a pgSize pa perm = .ok (r, k') ∧ Grew root k k' l ∧ PtOk k' root ∧
      ((r = -1 ∧ k'.free = [] ∧ lookup k'.m root = lookup k.m root) ∨
        (r = 0 ∧ ∀ w < 2 ^ 27, lookup k'.m root w =
          if w = a / pgSize then some (pgrounddown pa, perm ||| pteV) else lookup k.m root w)) := by
  rw [mappages_page ha hmax]
  rcases mappagesLoop_step a h hperm ha hmax hpa hfree with
    ⟨k₁, l, hrun, hg, h₁, hf, hl⟩ | ⟨k₁, l, hg, h₁, hl, hrun⟩
  · exact ⟨-1, k₁, l, hrun, hg, h₁, .inl ⟨rfl, hf, hl⟩⟩
  · exact ⟨0, k₁, l, by rw [hrun, if_pos rfl], hg, h₁, .inr ⟨rfl, hl⟩⟩
/-- What a loop that maps fresh pages (`uvmalloc`'s, `uvmcopy`'s) has done since it started from
`k₀` at the page-aligned `oldsz`, once it has mapped `c` pages: the pages `oldsz / PGSIZE + j`,
`j < c`, map to the data pages `pas j` with the flags `fl j`, and hold the words `img j`; the
pages it took off the free list are these and the new tables `l`, and nothing but tables and
once-free pages changed. -/
structure Allocated (root oldsz : ℕ) (fl : ℕ → ℕ) (img : ℕ → ℕ → ℕ) (k₀ k : Kmem)
    (pas : ℕ → ℕ) (l : List ℕ) (c : ℕ) : Prop where
  ok : PtOk k root
  free : k₀.free.Perm (l ++ (List.range c).map pas ++ k.free)
  kend : k.kend = k₀.kend
  tables : ∀ x, IsTable k.m root x ↔ IsTable k₀.m root x ∨ x ∈ l
  frame : k₀.Frame k fun x => IsTable k₀.m root x ∨ x ∈ k₀.free
  map : ∀ w < 2 ^ 27, lookup k.m root w =
    if oldsz / pgSize ≤ w ∧ w < oldsz / pgSize + c then
      some (pas (w - oldsz / pgSize), fl (w - oldsz / pgSize))
    else lookup k₀.m root w
  data : ∀ j < c, ∀ off < pgSize, k.m (pas j + off) = img j off

/-- What such a loop leaves when memory runs out: the map as it was, the tree grown by the
tables `l`, and every other page it took back on the free list. -/
structure RolledBack (root : ℕ) (k₀ k : Kmem) (l : List ℕ) : Prop where
  ok : PtOk k root
  free : k₀.free.Perm (l ++ k.free)
  kend : k.kend = k₀.kend
  tables : ∀ x, IsTable k.m root x ↔ IsTable k₀.m root x ∨ x ∈ l
  frame : k₀.Frame k fun x => IsTable k₀.m root x ∨ x ∈ k₀.free
  map : ∀ w < 2 ^ 27, lookup k.m root w = lookup k₀.m root w

theorem map_update_range (pas : ℕ → ℕ) (c p : ℕ) :
    (List.range (c + 1)).map (Function.update pas c p) = (List.range c).map pas ++ [p] := by
  rw [List.range_succ, List.map_append, List.map_singleton, Function.update_self]
  congr 1
  refine List.map_congr_left fun j hj => Function.update_of_ne ?_ _ _
  exact (List.mem_range.1 hj).ne

section Allocated

variable {oldsz c : ℕ} {fl : ℕ → ℕ} {img : ℕ → ℕ → ℕ} {pas : ℕ → ℕ} {l : List ℕ}

theorem data_mem {c j : ℕ} (pas : ℕ → ℕ) (hj : j < c) : pas j ∈ (List.range c).map pas :=
  List.mem_map.2 ⟨j, List.mem_range.2 hj, rfl⟩

theorem Allocated.start (h : PtOk k₀ root) (oldsz : ℕ) (fl : ℕ → ℕ) (img : ℕ → ℕ → ℕ)
    (pas : ℕ → ℕ) : Allocated root oldsz fl img k₀ k₀ pas [] 0 :=
  ⟨h, by simp, rfl, fun _ => by simp, Kmem.Frame.refl _ _,
    fun w _ => by rw [if_neg (by omega)], fun j hj => absurd hj (Nat.not_lt_zero j)⟩

theorem Allocated.mem_free (hA : Allocated root oldsz fl img k₀ k pas l c) {x : ℕ}
    (hx : x ∈ l ∨ x ∈ (List.range c).map pas ∨ x ∈ k.free) : x ∈ k₀.free := by
  rw [hA.free.mem_iff, List.mem_append, List.mem_append]
  tauto

theorem Allocated.mappedRun (hA : Allocated root oldsz fl img k₀ k pas l c)
    (hmax : oldsz + c * pgSize ≤ maxVa) (hfl : ∀ j < c, fl j ≠ pteV) :
    MappedRun k.m root pas (oldsz / pgSize) c := by
  intro j hj
  refine ⟨fl j, hfl j hj, ?_⟩
  rw [hA.map _ (by unfold maxVa at hmax; unfold pgSize at hmax ⊢; omega),
    if_pos ⟨by omega, by omega⟩, Nat.add_sub_cancel_left]

/-- Unmapping the pages mapped so far, when their range was unmapped at the start, rolls back. -/
theorem Allocated.rolledBack {k' : Kmem} (hA : Allocated root oldsz fl img k₀ k pas l c)
    (hu : Unmapped root k k' true pas (oldsz / pgSize) c)
    (hnone : ∀ w, oldsz / pgSize ≤ w → w < oldsz / pgSize + c → lookup k₀.m root w = none) :
    RolledBack root k₀ k' l := by
  refine ⟨hu.ok, ?_, hu.kend.trans hA.kend, fun x => (hu.tables x).trans (hA.tables x), ?_,
    fun w hw => ?_⟩
  · rw [hu.free, if_pos rfl]
    refine hA.free.trans ?_
    rw [List.append_assoc]
    exact List.Perm.append_left _ ((List.reverse_perm _).symm.append_right _)
  · refine (hA.frame.trans hu.frame).mono fun x hx => ?_
    rcases hx with hx | (hx | ⟨-, j, hj, rfl⟩)
    · exact hx
    · rcases (hA.tables x).1 hx with hx | hx
      · exact .inl hx
      · exact .inr (hA.mem_free (.inl hx))
    · exact .inr (hA.mem_free (.inr (.inl (data_mem pas hj))))
  · rw [hu.map w hw, hA.map w hw]
    split_ifs with h₁
    · exact (hnone w h₁.1 h₁.2).symm
    · rfl

variable (hk0 : PtOk k₀ root) (hA : Allocated root oldsz fl img k₀ k pas l c)
include hk0 hA

theorem Allocated.nodup : (l ++ (List.range c).map pas ++ k.free).Nodup :=
  hA.free.nodup_iff.1 hk0.ok.nodup

theorem Allocated.data_not_free {j : ℕ} (hj : j < c) : pas j ∉ k.free := fun hf =>
  List.disjoint_of_nodup_append (hA.nodup hk0) (List.mem_append_right _ (data_mem pas hj)) hf

theorem Allocated.data_not_table {j : ℕ} (hj : j < c) : ¬ IsTable k.m root (pas j) := by
  rw [hA.tables]
  rintro (ht | hl)
  · exact hk0.not_free _ ht (hA.mem_free (.inr (.inl (data_mem pas hj))))
  · exact List.disjoint_of_nodup_append (List.nodup_append.1 (hA.nodup hk0)).1 hl
      (data_mem pas hj)

theorem Allocated.data_page {j : ℕ} (hj : j < c) : k.Page (pas j) :=
  (hk0.ok.page _ (hA.mem_free (.inr (.inl (data_mem pas hj))))).congr hA.kend

/-- The data pages mapped so far can be freed. -/
theorem Allocated.freeable : Freeable k root pas c :=
  ⟨fun _ hj => hA.data_page hk0 hj, fun _ hj => hA.data_not_free hk0 hj,
    fun _ hj => hA.data_not_table hk0 hj,
    (List.nodup_append.1 (List.nodup_append.1 (hA.nodup hk0)).1).2.1⟩

/-- When memory runs out, `uvmdealloc` back to `oldsz` unmaps and frees the pages mapped so far:
what is left is rolled back. -/
theorem Allocated.rollback (hal : oldsz % pgSize = 0) (hmax : oldsz + c * pgSize ≤ maxVa)
    (hfl : ∀ j < c, fl j ≠ pteV)
    (hnone : ∀ w, oldsz / pgSize ≤ w → w < oldsz / pgSize + c → lookup k₀.m root w = none) :
    ∃ r k', uvmdealloc k root (oldsz + c * pgSize) oldsz = .ok (r, k') ∧
      RolledBack root k₀ k' l := by
  rcases Nat.eq_zero_or_pos c with rfl | hc
  · refine ⟨oldsz + 0 * pgSize, k, by rw [uvmdealloc, if_pos (by omega)], ⟨hA.ok, ?_, hA.kend,
      hA.tables, hA.frame, fun w hw => by rw [hA.map w hw, if_neg (by omega)]⟩⟩
    simpa using hA.free
  have hold : oldsz ≤ maxVa := by omega
  have hup : pgroundup oldsz = oldsz := pgroundup_of_mod hold hal
  have hup' : pgroundup (oldsz + c * pgSize) = oldsz + c * pgSize :=
    pgroundup_of_mod hmax (by unfold pgSize at hal ⊢; omega)
  have hn : (pgroundup (oldsz + c * pgSize) - pgroundup oldsz) / pgSize = c := by
    rw [hup, hup', Nat.add_sub_cancel_left, Nat.mul_div_cancel _ (by unfold pgSize; omega)]
  obtain ⟨k', hd, hu⟩ := uvmdealloc_run pas hA.ok (show oldsz < oldsz + c * pgSize by
    unfold pgSize; omega) hmax (by rw [hn, hup]; exact hA.mappedRun hmax hfl)
    (by rw [hn]; exact hA.freeable hk0)
  rw [hn, hup] at hu
  exact ⟨oldsz, k', hd, hA.rolledBack hu hnone⟩

/-- `uvmunmap(pagetable, oldsz, c, 1)` unmaps and frees the pages mapped so far: what is left is
rolled back. -/
theorem Allocated.unmapAll (hal : oldsz % pgSize = 0) (hmax : oldsz + c * pgSize ≤ maxVa)
    (hfl : ∀ j < c, fl j ≠ pteV)
    (hnone : ∀ w, oldsz / pgSize ≤ w → w < oldsz / pgSize + c → lookup k₀.m root w = none) :
    ∃ k', uvmunmap k root oldsz c true = .ok k' ∧ RolledBack root k₀ k' l := by
  obtain ⟨k', hrun, hu⟩ := uvmunmapLoop_run c pas k oldsz hA.ok hal hmax le_rfl
    (hA.mappedRun hmax hfl) fun _ => hA.freeable hk0
  refine ⟨k', ?_, hA.rolledBack hu hnone⟩
  rw [uvmunmap_eq hal hmax, hrun, uvmunmapLoop_done _ (lt_irrefl _)]

/-- A step that changes nothing but tables and pages of the free list keeps the data pages
mapped so far, and the frame of the whole loop. -/
theorem Allocated.keep (hf : k.Frame k' fun x => IsTable k.m root x ∨ x ∈ k.free) :
    k₀.Frame k' (fun x => IsTable k₀.m root x ∨ x ∈ k₀.free) ∧
      ∀ j < c, ∀ off < pgSize, k'.m (pas j + off) = img j off := by
  refine ⟨(hA.frame.trans hf).mono fun x hx => ?_, fun j hj off hoff => ?_⟩
  · rcases hx with hx | hx | hx
    · exact hx
    · rcases (hA.tables x).1 hx with hx | hx
      · exact .inl hx
      · exact .inr (hA.mem_free (.inl hx))
    · exact .inr (hA.mem_free (.inr (.inr hx)))
  · have hb : pgrounddown (pas j + off) = pas j :=
      pgrounddown_of_lt (hA.data_page hk0 hj).aligned (Nat.le_add_right _ _) (by omega)
    have hn : ¬ (IsTable k.m root (pas j) ∨ pas j ∈ k.free) := fun h =>
      h.elim (hA.data_not_table hk0 hj) (hA.data_not_free hk0 hj)
    rw [hf _ (by rw [hb]; exact hn)]
    exact hA.data j hj off hoff

/-- A page `p` off the head of the free list, filled with `img c` and mapped by `mappages` as the
next page of the ledger with the flags `fl c`: either `walk` runs out of memory, and once `p` is
freed again the ledger is as it was with more tables; or the ledger grows by that page. -/
theorem Allocated.mapPage {p perm : ℕ} {rest : List ℕ} {k₂ : Kmem} (hal : oldsz % pgSize = 0)
    (hmax : oldsz + (c + 1) * pgSize ≤ maxVa) (hnone : lookup k₀.m root (oldsz / pgSize + c) = none)
    (hf : k.free = p :: rest) (hfr₂ : k.Frame k₂ (· = p)) (hfree₂ : k₂.free = rest)
    (hend₂ : k₂.kend = k.kend) (himg : ∀ off < pgSize, k₂.m (p + off) = img c off)
    (hperm : perm < 2 ^ 10) (hfl : perm ||| pteV = fl c) :
    (∃ k₃ k₄ l₁, mappages k₂ root (oldsz + c * pgSize) pgSize p perm = .ok (-1, k₃) ∧
      kfree k₃ p = .ok k₄ ∧ Allocated root oldsz fl img k₀ k₄ pas (l ++ l₁) c) ∨
    ∃ k₃ l₁, mappages k₂ root (oldsz + c * pgSize) pgSize p perm = .ok (0, k₃) ∧
      Allocated root oldsz fl img k₀ k₃ (Function.update pas c p) (l ++ l₁) (c + 1) := by
  have ha : (oldsz + c * pgSize) % pgSize = 0 := by unfold pgSize at *; omega
  have hamax : oldsz + c * pgSize < maxVa := by unfold pgSize at *; omega
  have hdiv : (oldsz + c * pgSize) / pgSize = oldsz / pgSize + c := by unfold pgSize at *; omega
  have h27 : oldsz / pgSize + c < 2 ^ 27 := by
    unfold maxVa at hmax; unfold pgSize at hmax ⊢; omega
  obtain ⟨h₂, hin₂, hnt, hpg⟩ := hA.ok.take hf hfr₂ hfree₂ hend₂
  have hl₂ : lookup k₂.m root = lookup k.m root :=
    lookup_frame hA.ok.tree hfr₂ fun x hx hxp => hnt (hxp ▸ hx)
  have ht₂ : ∀ x, IsTable k₂.m root x ↔ IsTable k.m root x := isTable_congr hA.ok.tree hin₂
  have hpr : p ∉ rest := (List.nodup_cons.1 (hf ▸ hA.ok.ok.nodup)).1
  have hfree : lookup k₂.m root ((oldsz + c * pgSize) / pgSize) = none := by
    rw [hl₂, hdiv, hA.map _ h27, if_neg (by omega)]
    exact hnone
  -- what the step may change: `p`, tables of the tree, and pages `walk` took from the list
  have hstep : ∀ x, x = p ∨ IsTable k₂.m root x ∨ x ∈ k₂.free →
      IsTable k.m root x ∨ x ∈ k.free := by
    rintro x (rfl | hx | hx)
    · exact .inr (by rw [hf]; exact List.mem_cons_self)
    · exact .inl ((ht₂ x).1 hx)
    · exact .inr (by rw [hf]; exact List.mem_cons_of_mem _ (hfree₂ ▸ hx))
  rw [mappages_page ha hamax]
  rcases mappagesLoop_step (oldsz + c * pgSize) h₂ hperm ha hamax hpg.lt_two_pow hfree with
    ⟨k₃, l₁, hrun, hg, h₃, hf₃, hl₃⟩ | ⟨k₃, l₁, hg, h₃, hl₃, hrun⟩
  · -- `walk` ran out of memory: `p` goes back on the list, and the ledger has more tables
    have hnt₃ : ¬ IsTable k₃.m root p := by
      rw [hg.tables, ht₂]
      rintro (hx | hx)
      · exact hnt hx
      · exact hpr (by rw [← hfree₂, hg.free]; exact List.mem_append_left _ hx)
    obtain ⟨k₄, hk₄, h₄, hf₄, he₄, -, ht₄, hl₄, hfr₄⟩ :=
      h₃.kfree (hpg.congr (hg.kend.trans hend₂)) (by rw [hf₃]; exact List.not_mem_nil) hnt₃
    have hfr : k.Frame k₄ fun x => IsTable k.m root x ∨ x ∈ k.free := by
      refine ((hfr₂.trans hg.frame).trans hfr₄).mono fun x hx => ?_
      rcases hx with (hx | hx) | rfl
      · exact hstep x (.inl hx)
      · exact hstep x (.inr (hx.imp_right fun hx => by rw [hg.free]; exact List.mem_append_left _ hx))
      · exact hstep _ (.inl rfl)
    obtain ⟨hfr₀, hz⟩ := hA.keep hk0 hfr
    refine .inl ⟨k₃, k₄, l₁, hrun, hk₄, h₄, hA.free.trans ?_,
      by rw [he₄, hg.kend, hend₂]; exact hA.kend, fun x => ?_, hfr₀,
      fun w hw => by rw [hl₄, hl₃, hl₂, hA.map w hw], hz⟩
    · rw [hf, ← hfree₂, hg.free, hf₄, hf₃]
      exact List.perm_iff_count.2 fun x => by simp [List.count_append, List.count_cons]; omega
    · rw [ht₄, hg.tables, ht₂, hA.tables, List.mem_append, or_assoc]
  · -- the page is mapped: the ledger grows by one page
    have hfr : k.Frame k₃ fun x => IsTable k.m root x ∨ x ∈ k.free := by
      refine (hfr₂.trans hg.frame).mono fun x hx => ?_
      rcases hx with rfl | hx | hx
      · exact hstep _ (.inl rfl)
      · exact hstep x (.inr (.inl hx))
      · exact hstep x (.inr (.inr (by rw [hg.free]; exact List.mem_append_left _ hx)))
    obtain ⟨hfr₀, hz⟩ := hA.keep hk0 hfr
    refine .inr ⟨k₃, l₁, by rw [hrun, if_pos rfl], h₃, hA.free.trans ?_,
      by rw [hg.kend, hend₂]; exact hA.kend, fun x => ?_, hfr₀, fun w hw => ?_,
      fun j hj off hoff => ?_⟩
    · rw [map_update_range, hf, ← hfree₂, hg.free]
      exact List.perm_iff_count.2 fun x => by simp [List.count_append, List.count_cons]; omega
    · rw [hg.tables, ht₂, hA.tables, List.mem_append, or_assoc]
    · rw [hl₃ w hw, hdiv, hl₂, hA.map w hw]
      by_cases hw0 : w = oldsz / pgSize + c
      · rw [if_pos hw0, if_pos (by omega), show w - oldsz / pgSize = c by omega,
          Function.update_self, pgrounddown_of_lt hpg.aligned le_rfl (by unfold pgSize; omega), hfl]
      · rw [if_neg hw0]
        by_cases hin : oldsz / pgSize ≤ w ∧ w < oldsz / pgSize + c
        · rw [if_pos hin, if_pos (by omega), Function.update_of_ne (by omega)]
        · rw [if_neg hin, if_neg (by omega)]
    · by_cases hjc : j = c
      · -- the new page: filled before `mappages`, which leaves it alone
        subst hjc
        have hb : pgrounddown (p + off) = p :=
          pgrounddown_of_lt hpg.aligned (Nat.le_add_right _ _) (by omega)
        rw [Function.update_self, hg.frame (p + off) (by
          rw [hb]
          rintro (hx | hx)
          · exact hnt ((ht₂ p).1 hx)
          · exact hpr (by rw [← hfree₂, hg.free]; exact List.mem_append_left _ hx))]
        exact himg off hoff
      · rw [Function.update_of_ne hjc]
        exact hz j (by omega) off hoff

end Allocated

/-- The flags `uvmalloc` maps its pages with are not `PTE_V` alone. -/
theorem uvmalloc_perm_ne {xperm : ℕ} : (pteR ||| pteU ||| xperm) ||| pteV ≠ pteV := by
  intro h
  have h1 := congrArg (Nat.testBit · 1) h
  simp [pteR, pteV, Nat.testBit_or] at h1
  -- bit 1, `PTE_R`, is set on the left only
  exact absurd (h1 (.inl (.inl (by decide)))) (by decide)

/-- One page of `uvmalloc`'s loop from a state of the ledger: memory runs out and what was
mapped is rolled back, or the page is mapped to a fresh zeroed page and the loop goes on. -/
theorem uvmallocLoop_step {oldsz newsz xperm c : ℕ} {pas : ℕ → ℕ} {l : List ℕ}
    (hk0 : PtOk k₀ root) (hA : Allocated root oldsz (fun _ => pteR ||| pteU ||| xperm ||| pteV) (fun _ _ => 0) k₀ k pas l c)
    (hal : oldsz % pgSize = 0) (hx : xperm < 2 ^ 10) (hlt : oldsz + c * pgSize < newsz)
    (hmax : oldsz + (c + 1) * pgSize ≤ maxVa)
    (hnone : ∀ w, oldsz / pgSize ≤ w → w < oldsz / pgSize + (c + 1) → lookup k₀.m root w = none) :
    (∃ k' l', uvmallocLoop root oldsz newsz xperm k (oldsz + c * pgSize) = .ok (0, k') ∧
      RolledBack root k₀ k' l') ∨
    ∃ k₁ pas' l', Allocated root oldsz (fun _ => pteR ||| pteU ||| xperm ||| pteV) (fun _ _ => 0) k₀ k₁ pas' l' (c + 1) ∧
      uvmallocLoop root oldsz newsz xperm k (oldsz + c * pgSize) =
        uvmallocLoop root oldsz newsz xperm k₁ (oldsz + (c + 1) * pgSize) := by
  have hperm : pteR ||| pteU ||| xperm < 2 ^ 10 :=
    Nat.or_lt_two_pow (Nat.or_lt_two_pow (by decide) (by decide)) hx
  have hmaxc : oldsz + c * pgSize ≤ maxVa :=
    le_trans (Nat.add_le_add_left (Nat.mul_le_mul_right _ (Nat.le_succ c)) _) hmax
  have hnone' : ∀ w, oldsz / pgSize ≤ w → w < oldsz / pgSize + c → lookup k₀.m root w = none :=
    fun w h₁ h₂ => hnone w h₁ (by omega)
  rw [uvmallocLoop, if_pos hlt]
  rcases kalloc_spec hA.ok.ok with ⟨-, h0⟩ | ⟨p, rest, hf, hp0, -, -, hkp⟩
  · -- `kalloc` fails: deallocate back to `oldsz`
    obtain ⟨r, k', hd, hrb⟩ := hA.rollback hk0 hal hmaxc (fun _ _ => uvmalloc_perm_ne) hnone'
    refine .inl ⟨k', l, ?_, hrb⟩
    simp only [h0, ↓reduceIte]
    rw [hd]
    rfl
  obtain ⟨-, -, hfr₂, -, hpg, hz₂⟩ := hA.ok.take_zeroed hf
  have himg : ∀ off < pgSize, (({ k with free := rest }.memset p 5).memset p 0).m (p + off) = 0 :=
    fun off hoff => hz₂ _ (pgrounddown_of_lt hpg.aligned (Nat.le_add_right _ _) (by omega))
  simp only [hkp, if_neg hp0.ne']
  rcases hA.mapPage hk0 hal hmax (hnone _ (by omega) (by omega)) hf hfr₂ rfl rfl himg hperm rfl with
    ⟨k₃, k₄, l₁, hrun, hk₄, hA₄⟩ | ⟨k₃, l₁, hrun, hA₃⟩
  · -- `mappages` ran out of memory in `walk`: free the page, then deallocate
    obtain ⟨r, k', hd, hrb⟩ := hA₄.rollback hk0 hal hmaxc (fun _ _ => uvmalloc_perm_ne) hnone'
    refine .inl ⟨k', l ++ l₁, ?_, hrb⟩
    rw [hrun]
    simp only [ne_eq, Int.reduceNeg, Int.neg_ne_zero, one_ne_zero, not_false_eq_true, ↓reduceIte]
    rw [hk₄]
    simp only [hd, bind, Except.bind, pure, Except.pure]
  · -- the page is mapped: the loop goes on with one more page in the ledger
    refine .inr ⟨k₃, _, _, hA₃, ?_⟩
    rw [hrun, show oldsz + (c + 1) * pgSize = oldsz + c * pgSize + pgSize by ring]
    simp only [ne_eq, not_true_eq_false, ↓reduceIte]

/-- The rest of `uvmalloc`'s loop from a state of the ledger with `c` of its `N` pages mapped: it
maps all `N`, or runs out of memory and rolls back. -/
theorem uvmallocLoop_run {oldsz newsz xperm N : ℕ} (hk0 : PtOk k₀ root) (hal : oldsz % pgSize = 0)
    (hx : xperm < 2 ^ 10) (hmax : oldsz + N * pgSize ≤ maxVa) (hN : newsz ≤ oldsz + N * pgSize)
    (hN' : oldsz + N * pgSize < newsz + pgSize)
    (hnone : ∀ w, oldsz / pgSize ≤ w → w < oldsz / pgSize + N → lookup k₀.m root w = none) :
    ∀ n c (pas : ℕ → ℕ) (l : List ℕ) (k : Kmem), c + n = N →
      Allocated root oldsz (fun _ => pteR ||| pteU ||| xperm ||| pteV) (fun _ _ => 0) k₀ k pas l c →
      ∃ r k', uvmallocLoop root oldsz newsz xperm k (oldsz + c * pgSize) = .ok (r, k') ∧
        ((r = newsz ∧ ∃ pas' l', Allocated root oldsz (fun _ => pteR ||| pteU ||| xperm ||| pteV) (fun _ _ => 0) k₀ k' pas' l' N) ∨
          (r = 0 ∧ ∃ l', RolledBack root k₀ k' l')) := by
  intro n
  induction n with
  | zero =>
    intro c pas l k hc hA
    rw [Nat.add_zero] at hc
    subst hc
    exact ⟨newsz, k, by rw [uvmallocLoop, if_neg (by omega)], .inl ⟨rfl, pas, l, hA⟩⟩
  | succ n ih =>
    intro c pas l k hc hA
    have hlt : oldsz + c * pgSize < newsz := by unfold pgSize at *; nlinarith
    have hmax' : oldsz + (c + 1) * pgSize ≤ maxVa := by unfold pgSize at *; nlinarith
    rcases uvmallocLoop_step hk0 hA hal hx hlt hmax' fun w h₁ h₂ => hnone w h₁ (by omega) with
      ⟨k', l', hrun, hrb⟩ | ⟨k₁, pas', l', hA₁, hrun⟩
    · exact ⟨0, k', hrun, .inr ⟨rfl, l', hrb⟩⟩
    · obtain ⟨r, k', hrun', hres⟩ := ih (c + 1) pas' l' k₁ (by omega) hA₁
      exact ⟨r, k', hrun.trans hrun', hres⟩

/-- `uvmalloc(pagetable, oldsz, newsz, xperm)` with `oldsz <= newsz <= MAXVA`, on a tree in order
whose pages from `PGROUNDUP(oldsz)` up to `newsz` are unmapped, never panics: it returns `newsz`
with each of those pages mapped to a zeroed page off the free list, with flags
`PTE_R | PTE_U | xperm | PTE_V`; or, when memory runs out, `0` with the map as it was and every
page it took back on the free list but the new tables. -/
theorem uvmalloc_spec {oldsz newsz xperm : ℕ} (h : PtOk k root) (hle : oldsz ≤ newsz)
    (hmax : newsz ≤ maxVa) (hx : xperm < 2 ^ 10)
    (hnone : ∀ w, pgroundup oldsz / pgSize ≤ w → w < pgroundup newsz / pgSize →
      lookup k.m root w = none) :
    ∃ r k', uvmalloc k root oldsz newsz xperm = .ok (r, k') ∧
      ((r = newsz ∧ ∃ pas l, Allocated root (pgroundup oldsz)
          (fun _ => pteR ||| pteU ||| xperm ||| pteV) (fun _ _ => 0) k k' pas l
          ((pgroundup newsz - pgroundup oldsz) / pgSize)) ∨
        (r = 0 ∧ ∃ l, RolledBack root k k' l)) := by
  have hold := hle.trans hmax
  have hal := pgroundup_mod hold
  have hnal := pgroundup_mod hmax
  have hmono := pgroundup_mono hle hmax
  have hend : pgroundup oldsz + (pgroundup newsz - pgroundup oldsz) / pgSize * pgSize =
      pgroundup newsz := by
    unfold pgSize at *; omega
  have hup := le_pgroundup hmax
  have hlt := pgroundup_lt hmax
  have hbound := pgroundup_le hmax
  have hdivN : pgroundup oldsz / pgSize + (pgroundup newsz - pgroundup oldsz) / pgSize =
      pgroundup newsz / pgSize := by
    unfold pgSize at hal hnal hmono ⊢; omega
  set N := (pgroundup newsz - pgroundup oldsz) / pgSize with hN
  have hbound' : pgroundup oldsz + N * pgSize ≤ maxVa := by rw [hend]; exact hbound
  have hup' : newsz ≤ pgroundup oldsz + N * pgSize := by rw [hend]; exact hup
  have hlt' : pgroundup oldsz + N * pgSize < newsz + pgSize := by rw [hend]; exact hlt
  obtain ⟨r, k', hrun, hres⟩ := uvmallocLoop_run h hal hx hbound' hup' hlt'
    (fun w h₁ h₂ => hnone w h₁ (by rw [← hdivN]; exact h₂))
    N 0 (fun _ => 0) [] k (Nat.zero_add _) (Allocated.start h _ _ _ _)
  refine ⟨r, k', ?_, hres⟩
  rw [uvmalloc, if_neg (Nat.not_lt.2 hle), ← hrun, Nat.zero_mul, Nat.add_zero]


/-- `uvmalloc` of one page into the empty tree of `bootKmem`. -/
example :
    ∃ r k', uvmalloc bootKmem kernbase 0 pgSize 0 = .ok (r, k') ∧ (r = pgSize ∨ r = 0) := by
  obtain ⟨r, k', hrun, hres⟩ := uvmalloc_spec (bootKmem_ptOk (.inl rfl)) (Nat.zero_le pgSize)
    (by decide) (show (0 : ℕ) < 2 ^ 10 by decide) fun w _ _ => bootKmem_lookup kernbase w
  exact ⟨r, k', hrun, hres.imp (fun h => h.1) (fun h => h.1)⟩
end Xv6.Vm
