import Xv6.Vm.Tree

/-!
# Building and tearing down page tables (`kernel/vm.c`)

`walk(pagetable, va, 1)` hangs a zeroed page from `kalloc` under each invalid interior entry on
the way down; `mappages` installs leaf PTEs page by page, `uvmunmap` clears them, and
`freewalk` frees the table pages of a tree whose leaves are gone.  Each is read against the
abstract map `lookup`.

* `PtOk k root`: the page table at `root` is a tree whose pages are off the free list;
* `Grew root k k' l`: `k'` is `k` after the pages `l` came off the head of the free list into
  the tree, the map unchanged; `walkAlloc_spec` is `walk` with `alloc` in these terms.
-/

namespace Xv6.Vm

/-- The body of `walk`'s loop at index `i` of the table at `pagetable`, with `alloc` set: the
next table, from a valid PTE or from a zeroed page of `kalloc` put under the PTE; `none` when
`kalloc` fails. -/
def walkStep (k : Kmem) (pagetable i : ℕ) : Option ℕ × Kmem :=
  if pteValid (k.m (pagetable + 8 * i)) then (some (pte2pa (k.m (pagetable + 8 * i))), k)
  else
    match kalloc k with
    | (0, k) => (none, k)
    | (p, k) => (some p, (k.memset p 0).store (pagetable + 8 * i) (mkPte p pteV))

/-- `walk`'s loop from `level` down, with `alloc` set: the address of the level-0 PTE. -/
def walkAllocFrom (va : ℕ) : ℕ → ℕ → Kmem → Option ℕ × Kmem
  | 0, pagetable, k => (some (pagetable + 8 * px 0 va), k)
  | level + 1, pagetable, k =>
    match walkStep k pagetable (px (level + 1) va) with
    | (none, k) => (none, k)
    | (some t, k) => walkAllocFrom va level t k

/-- `walk(pagetable, va, 1)`: panics on `va >= MAXVA`. -/
def walkAlloc (k : Kmem) (pagetable va : ℕ) : Except String (Option ℕ × Kmem) :=
  if maxVa ≤ va then .error "walk" else .ok (walkAllocFrom va 2 pagetable k)

/-- The page table at `root` in `k`: a tree whose pages are pages `kfree` accepts and not on
the free list, with the allocator in order. -/
structure PtOk (k : Kmem) (root : ℕ) : Prop where
  tree : Tree k.m root
  ok : k.Ok
  not_free : ∀ t, IsTable k.m root t → t ∉ k.free
  page : ∀ t, IsTable k.m root t → k.Page t

/-- `k'` is `k` after the pages `l` came off the head of the free list into the tree at `root`;
nothing outside the tree and `l` changed. -/
structure Grew (root : ℕ) (k k' : Kmem) (l : List ℕ) : Prop where
  free : k.free = l ++ k'.free
  kend : k'.kend = k.kend
  tables : ∀ x, IsTable k'.m root x ↔ IsTable k.m root x ∨ x ∈ l
  frame : k.Frame k' fun x => IsTable k.m root x ∨ x ∈ l

variable {k k' k'' : Kmem} {root : ℕ}

theorem Grew.refl (k : Kmem) (root : ℕ) : Grew root k k [] :=
  ⟨rfl, rfl, fun _ => by simp, Kmem.Frame.refl _ _⟩

theorem Grew.trans {l l' : List ℕ} (h : Grew root k k' l) (h' : Grew root k' k'' l') :
    Grew root k k'' (l ++ l') := by
  refine ⟨by rw [h.free, h'.free, List.append_assoc], h'.kend.trans h.kend, fun x => ?_, ?_⟩
  · rw [h'.tables, h.tables, List.mem_append]
    tauto
  · refine (h.frame.trans h'.frame).mono fun x hx => ?_
    rw [h.tables] at hx
    rw [List.mem_append]
    tauto

/-- A root page with no valid entry, off the free list of an allocator in order. -/
theorem PtOk.empty (hk : k.Ok) (hr : k.Page root) (hn : root ∉ k.free)
    (hz : ∀ i < 512, pteValid (entry k.m root i) = false) : PtOk k root :=
  ⟨Tree.empty hz hr.aligned, hk, fun t ht => (isTable_empty hz t).1 ht ▸ hn,
    fun t ht => (isTable_empty hz t).1 ht ▸ hr⟩

/-- A machine for the examples: memory all zero, `end` at `KERNBASE`, the two pages from there
kept for page-table roots and the three above them free. -/
def bootKmem : Kmem := ⟨fun _ => 0, [kernbase + 0x2000, kernbase + 0x3000, kernbase + 0x4000], kernbase⟩

theorem bootKmem_ok : bootKmem.Ok := by
  refine ⟨by decide, fun p hp => ?_, by decide⟩
  simp only [bootKmem, List.mem_cons, List.not_mem_nil, or_false] at hp
  rcases hp with rfl | rfl | rfl <;> exact ⟨by decide, by decide, by decide⟩

theorem bootKmem_entry (r i : ℕ) : pteValid (entry bootKmem.m r i) = false := by
  simp [entry, bootKmem, pteValid]

theorem bootKmem_lookup (r w : ℕ) : lookup bootKmem.m r w = none :=
  lookup_empty (fun i _ => bootKmem_entry r i) w

/-- Either root page of `bootKmem` is an empty tree in order. -/
theorem bootKmem_ptOk {r : ℕ} (hr : r = kernbase ∨ r = kernbase + 0x1000) : PtOk bootKmem r := by
  refine PtOk.empty bootKmem_ok ?_ ?_ fun i _ => bootKmem_entry r i
  · rcases hr with rfl | rfl <;> exact ⟨by decide, by decide, by decide⟩
  · rcases hr with rfl | rfl <;> decide

theorem PtOk.grew {l : List ℕ} (h : PtOk k root) (hg : Grew root k k' l) (ht : Tree k'.m root) :
    PtOk k' root := by
  have hnd : (l ++ k'.free).Nodup := hg.free ▸ h.ok.nodup
  refine ⟨ht, ⟨(List.nodup_append.1 hnd).2.1, fun p hp => ?_, hg.kend ▸ h.ok.kend_pos⟩,
    fun t htk hf => ?_, fun t htk => ?_⟩
  · exact (h.ok.page p (by rw [hg.free]; exact List.mem_append_right _ hp)).congr hg.kend
  · rcases (hg.tables t).1 htk with htk | htk
    · exact h.not_free t htk (by rw [hg.free]; exact List.mem_append_right _ hf)
    · exact (List.nodup_append.1 hnd).2.2 t htk t hf rfl
  · -- a new table came off the free list, whose pages are all ones `kfree` accepts
    rcases (hg.tables t).1 htk with htk | htk
    · exact (h.page t htk).congr hg.kend
    · exact (h.ok.page t (by rw [hg.free]; exact List.mem_append_left _ htk)).congr hg.kend

/-- A page taken off the head of the free list and written on itself alone: the tree is in order,
its inner entries as they were, and the page was none of its tables. -/
theorem PtOk.take {p : ℕ} {rest : List ℕ} {k₂ : Kmem} (h : PtOk k root) (hf : k.free = p :: rest)
    (hfr : k.Frame k₂ (· = p)) (hfree : k₂.free = rest) (hend : k₂.kend = k.kend) :
    PtOk k₂ root ∧ AgreeInner k.m k₂.m root ∧ ¬ IsTable k.m root p ∧ k.Page p := by
  have hpf : p ∈ k.free := by rw [hf]; exact List.mem_cons_self
  have hnt : ¬ IsTable k.m root p := fun hx => h.not_free p hx hpf
  have hin := agreeInner_of_frame hfr fun x hx hxp => hnt (hxp ▸ hx)
  have hok : k₂.Ok := (h.ok.pop hf 5).congr hfree hend
  refine ⟨⟨h.tree.congr hin, hok, fun t ht hr => ?_, fun t ht => ?_⟩, hin, hnt, h.ok.page p hpf⟩
  · rw [isTable_congr h.tree hin] at ht
    rw [hfree] at hr
    exact h.not_free t ht (by rw [hf]; exact List.mem_cons_of_mem _ hr)
  · exact (h.page t ((isTable_congr h.tree hin t).1 ht)).congr hend

/-- The page `kalloc` takes, zeroed: `PtOk.take`, and the page reads 0. -/
theorem PtOk.take_zeroed {p : ℕ} {rest : List ℕ} (h : PtOk k root) (hf : k.free = p :: rest) :
    PtOk (({ k with free := rest }.memset p 5).memset p 0) root ∧
      AgreeInner k.m (({ k with free := rest }.memset p 5).memset p 0).m root ∧
      k.Frame (({ k with free := rest }.memset p 5).memset p 0) (· = p) ∧
      ¬ IsTable k.m root p ∧ k.Page p ∧
      ∀ b, pgrounddown b = p → (({ k with free := rest }.memset p 5).memset p 0).m b = 0 := by
  have hpg : k.Page p := h.ok.page p (by rw [hf]; exact List.mem_cons_self)
  have hfr : k.Frame (({ k with free := rest }.memset p 5).memset p 0) (· = p) := fun a ha =>
    (((frame_memset { k with free := rest } hpg.aligned 5).trans
      (frame_memset _ hpg.aligned 0)).mono fun x hx => by rcases hx with hx | hx <;> exact hx) a ha
  obtain ⟨h₂, hin, hnt, -⟩ := h.take hf hfr rfl rfl
  refine ⟨h₂, hin, hfr, hnt, hpg, fun b hb => ?_⟩
  have hlo : p ≤ b := hb ▸ Nat.sub_le _ _
  have hhi : b < p + pgSize := by
    rw [← hb]; unfold pgrounddown pgSize; omega
  rw [Kmem.memset_m, if_pos ⟨hlo, hhi⟩, fillWord, Nat.zero_mul]

/-! ### `walk` with `alloc` -/

/-- One level of `walk` with `alloc`: the table under entry `i` of the table at `q`, perhaps a
page just taken off the free list and hung there; or `none`, with nothing changed, when the
free list is empty. -/
theorem walkStep_spec (h : PtOk k root) {q : List ℕ} {t i : ℕ} {r : Option ℕ} (hq : IsPath q)
    (hl : q.length < 2) (hi : i < 512) (htq : tableAt k.m root q = some t)
    (hw : walkStep k t i = (r, k')) :
    ∃ l, Grew root k k' l ∧ PtOk k' root ∧ lookup k'.m root = lookup k.m root ∧
      (∀ c, r = some c → tableAt k'.m root (q ++ [i]) = some c) ∧
      (r = none → k.free = [] ∧ k' = k) := by
  unfold walkStep at hw
  by_cases hv : pteValid (k.m (t + 8 * i)) = true
  · -- a valid entry: follow it
    rw [if_pos hv, Prod.mk.injEq] at hw
    obtain ⟨rfl, rfl⟩ := hw
    refine ⟨[], Grew.refl k root, h, rfl, fun c hc => ?_, fun hc => absurd hc (by simp)⟩
    rw [tableAt_append, htq, Option.bind_some, child, entry, if_pos hv, hc]
  rw [if_neg hv] at hw
  rcases kalloc_spec h.ok with ⟨hf, hk0⟩ | ⟨p, rest, hf, hp0, hpg, -, hkp⟩
  · -- `kalloc` fails: `walk` returns 0
    rw [hk0, Prod.mk.injEq] at hw
    obtain ⟨rfl, rfl⟩ := hw
    exact ⟨[], Grew.refl k root, h, rfl, fun c hc => absurd hc (by simp), fun _ => ⟨hf, rfl⟩⟩
  rw [hkp] at hw
  split at hw
  · rename_i heq
    exact absurd (Prod.mk.inj heq).1 hp0.ne'
  rename_i k₁ p' k₁' heq
  obtain ⟨rfl, rfl⟩ := Prod.mk.inj heq
  rw [Prod.mk.injEq] at hw
  obtain ⟨rfl, rfl⟩ := hw
  -- the page comes off the free list, so it is no table; `memset` zeroes it
  have hpf : p ∈ k.free := by rw [hf]; exact List.mem_cons_self
  have hnt : ¬ IsTable k.m root p := fun hx => h.not_free p hx hpf
  set k₂ := ({ k with free := rest }.memset p 5).memset p 0 with hk₂
  have hf₂ : k.Frame k₂ (· = p) := fun a ha =>
    (((frame_memset { k with free := rest } hpg.aligned 5).trans
      (frame_memset _ hpg.aligned 0)).mono fun x hx => by rcases hx with hx | hx <;> exact hx) a ha
  have hin : AgreeInner k.m k₂.m root :=
    agreeInner_of_frame hf₂ fun x hx hxp => hnt (hxp ▸ hx)
  have htree₂ := h.tree.congr hin
  have htq₂ : tableAt k₂.m root q = some t := (tableAt_congr h.tree hin hq).trans htq
  have htp : t ≠ p := fun htp => hnt ⟨q, hq, htp ▸ htq⟩
  have hc₂ : child k₂.m t i = none := by
    rw [child_congr (h.tree.table_mod htq) hi fun a ha => hf₂ a (ha ▸ htp)]
    simp [child, entry, hv]
  have hnt₂ : ¬ IsTable k₂.m root p := fun hx => hnt ((isTable_congr h.tree hin p).1 hx)
  have hz₂ : ∀ j < 512, entry k₂.m p j = 0 := by
    intro j hj
    rw [entry, hk₂, Kmem.memset_m, if_pos ⟨by omega, by unfold pgSize; omega⟩]
    rfl
  have hstore := fun {r' : List ℕ} (hr' : IsPath r') => tableAt_store_table htree₂ hq hl hi htq₂
    hc₂ hpg.aligned hpg.lt_two_pow hnt₂ hz₂ hr'
  have htree₃ := htree₂.store_table hq hl hi htq₂ hc₂ hpg.aligned hpg.lt_two_pow hnt₂ hz₂
  have hgrew : Grew root k (k₂.store (t + 8 * i) (mkPte p pteV)) [p] := by
    refine ⟨by rw [hf]; rfl, rfl, fun x => ?_, ?_⟩
    · show IsTable (Function.update k₂.m (t + 8 * i) (mkPte p pteV)) root x ↔ _
      rw [isTable_store_table htree₂ hq hl hi htq₂ hc₂ hpg.aligned hpg.lt_two_pow hnt₂ hz₂,
        isTable_congr h.tree hin, List.mem_singleton]
    · refine (hf₂.trans (frame_store k₂ _ _)).mono fun x hx => ?_
      rw [pgrounddown_entry (h.tree.table_mod htq) hi] at hx
      rcases hx with rfl | rfl
      · exact .inr (List.mem_singleton_self _)
      · exact .inl ⟨q, hq, htq⟩
  have hlook : lookup (k₂.store (t + 8 * i) (mkPte p pteV)).m root = lookup k.m root := by
    show lookup (Function.update k₂.m (t + 8 * i) (mkPte p pteV)) root = _
    rw [lookup_store_table htree₂ hq hl hi htq₂ hc₂ hpg.aligned hpg.lt_two_pow hnt₂ hz₂]
    exact lookup_frame h.tree hf₂ fun x hx hxp => hnt (hxp ▸ hx)
  refine ⟨[p], hgrew, h.grew hgrew htree₃, hlook, fun c hc => ?_,
    fun hc => absurd hc (by simp)⟩
  rw [← Option.some.inj hc]
  show tableAt (Function.update k₂.m (t + 8 * i) (mkPte p pteV)) root (q ++ [i]) = some p
  rw [hstore (isPath_append hq hl hi), if_pos rfl]

theorem walkAllocFrom_two (va t : ℕ) (k : Kmem) :
    walkAllocFrom va 2 t k =
      match walkStep k t (px 2 va) with
      | (none, k) => (none, k)
      | (some t₁, k) =>
        match walkStep k t₁ (px 1 va) with
        | (none, k) => (none, k)
        | (some t₀, k) => (some (t₀ + 8 * px 0 va), k) := rfl

/-- `walk(pagetable, va, 1)` below `MAXVA` on a tree in order: the tree grows by the pages taken
off the head of the free list, its map unchanged, and the result is the address `walk` then
finds for `va`; or `none` when the free list ran out. -/
theorem walkAlloc_spec (h : PtOk k root) {va : ℕ} (hva : va < maxVa) :
    ∃ r k' l, walkAlloc k root va = .ok (r, k') ∧ Grew root k k' l ∧ PtOk k' root ∧
      lookup k'.m root = lookup k.m root ∧ (∀ a, r = some a → walk k'.m root va = some a) ∧
      (r = none → k'.free = []) := by
  rw [walkAlloc, if_neg (Nat.not_le.2 hva), walkAllocFrom_two]
  rcases hw₁ : walkStep k root (px 2 va) with ⟨r₁, k₁⟩
  obtain ⟨l₁, hg₁, h₁, hl₁, hs₁, hn₁⟩ :=
    walkStep_spec h isPath_nil (by simp) (px_lt 2 va) rfl hw₁
  rcases r₁ with _ | t₁
  · exact ⟨none, k₁, l₁, rfl, hg₁, h₁, hl₁, fun a ha => absurd ha (by simp),
      fun _ => by rw [(hn₁ rfl).2]; exact (hn₁ rfl).1⟩
  dsimp only
  rcases hw₂ : walkStep k₁ t₁ (px 1 va) with ⟨r₂, k₂⟩
  obtain ⟨l₂, hg₂, h₂, hl₂, hs₂, hn₂⟩ := walkStep_spec h₁ ⟨by simp, by simp [px_lt]⟩ (by simp)
    (px_lt 1 va) (hs₁ t₁ rfl) hw₂
  rcases r₂ with _ | t₀
  · exact ⟨none, k₂, l₁ ++ l₂, rfl, hg₁.trans hg₂, h₂, hl₂.trans hl₁,
      fun a ha => absurd ha (by simp),
      fun _ => by rw [(hn₂ rfl).2]; exact (hn₂ rfl).1⟩
  refine ⟨some (t₀ + 8 * px 0 va), k₂, l₁ ++ l₂, rfl, hg₁.trans hg₂, h₂, hl₂.trans hl₁,
    fun a ha => ?_, fun ha => absurd ha (by simp)⟩
  rw [walk_eq, show [px 2 va, px 1 va] = [] ++ [px 2 va] ++ [px 1 va] from rfl, hs₂ t₀ rfl,
    Option.map_some, ha]

theorem lt_of_walkAlloc_ok {pagetable va : ℕ} {r : Option ℕ × Kmem}
    (h : walkAlloc k pagetable va = .ok r) : va < maxVa := by
  unfold walkAlloc at h
  split_ifs at h with hva
  exact Nat.lt_of_not_le hva

/-! ### `mappages` -/

/-- `PA2PTE(pa)`, `((pa) >> 12) << 10`. -/
def pa2pte (pa : ℕ) : ℕ := pa / 2 ^ 12 * 2 ^ 10

/-- The loop of `mappages` from page `a`, mapped to `pa`, through the page `last`: the leaf PTE
`PA2PTE(pa) | perm | PTE_V` for each page, with `walk` allocating the tables on the way; `-1`
when `walk` cannot. -/
def mappagesLoop (pagetable last perm : ℕ) (k : Kmem) (a pa : ℕ) : Except String (ℤ × Kmem) :=
  match h : walkAlloc k pagetable a with
  | .error e => .error e
  | .ok (none, k) => .ok (-1, k)
  | .ok (some pte, k) =>
    if pteValid (k.m pte) then .error "mappages: remap"
    else
      let k := k.store pte (pa2pte pa ||| perm ||| pteV)
      if a = last then .ok (0, k)
      else mappagesLoop pagetable last perm k (a + pgSize) ((pa + pgSize) % 2 ^ 64)
termination_by maxVa - a
decreasing_by
  have := lt_of_walkAlloc_ok h
  unfold pgSize
  omega

/-- `mappages(pagetable, va, size, pa, perm)`: `perm` as the 64-bit pattern `|` sees. -/
def mappages (k : Kmem) (pagetable va size pa perm : ℕ) : Except String (ℤ × Kmem) :=
  if size = 0 then .error "mappages: size"
  else mappagesLoop pagetable (pgrounddown ((va + size - 1) % 2 ^ 64)) perm k (pgrounddown va) pa

theorem pa2pte_or {pa f : ℕ} (hf : f < 2 ^ 10) : pa2pte pa ||| f = mkPte pa f := by
  apply Nat.eq_of_testBit_eq
  intro i
  rw [Nat.testBit_or, pa2pte, mkPte, Nat.mul_comm, Nat.testBit_two_pow_mul_add _ hf,
    Nat.testBit_two_pow_mul]
  by_cases hi : i < 10
  · simp [hi]
  · have : f.testBit i = false :=
      Nat.testBit_lt_two_pow (lt_of_lt_of_le hf (Nat.pow_le_pow_right (by decide) (by omega)))
    simp [hi, this]
    omega

/-- What `mappages` stores, read back: the page of `pa`, the flags `perm | PTE_V`. -/
theorem leaf_pa2pte {pa perm : ℕ} (hpa : pa < 2 ^ 64) (hperm : perm < 2 ^ 10) :
    pteValid (pa2pte pa ||| perm ||| pteV) = true ∧
      pte2pa (pa2pte pa ||| perm ||| pteV) = pgrounddown pa ∧
      (pa2pte pa ||| perm ||| pteV) % 2 ^ 10 = perm ||| pteV := by
  have hf : perm ||| pteV < 2 ^ 10 := Nat.or_lt_two_pow hperm (by decide)
  rw [Nat.or_assoc, pa2pte_or hf]
  refine ⟨?_, ?_, ?_⟩
  · rw [pteValid, testBit_mkPte _ hf (by decide), Nat.testBit_or]
    simp [pteV]
  · unfold pte2pa mkPte pgrounddown pgSize
    have h1 : (pa / 2 ^ 12 * 2 ^ 10 + (perm ||| pteV)) / 2 ^ 10 = pa / 2 ^ 12 := by omega
    rw [h1, Nat.mod_eq_of_lt (by omega)]
    omega
  · unfold mkPte
    omega

theorem pteValid_of_lookup_none {m : PteMem} {vpn a : ℕ} (h : lookup m root vpn = none)
    (hw : walk m root (vpn * pgSize) = some a) : pteValid (m a) = false := by
  unfold lookup at h
  rw [hw] at h
  simp only at h
  split_ifs at h with hv
  simpa using hv

theorem Grew.store_leaf {vpn a v : ℕ} (ht : Tree k.m root) (hw : walk k.m root (vpn * pgSize) = some a) :
    Grew root k (k.store a v) [] := by
  obtain ⟨t₀, h₀, rfl⟩ := exists_leaf_table hw
  refine ⟨rfl, rfl, fun x => ?_, (frame_store k _ v).mono fun x hx => .inl ?_⟩
  · rw [List.mem_nil_iff, or_false]
    exact isTable_congr ht (agreeInner_store_leaf ht hw) x
  · rw [hx, pgrounddown_entry (ht.table_mod h₀) (Nat.mod_lt _ (by decide))]
    exact ⟨_, isPath_vpnPath vpn, h₀⟩

/-- The page `j` pages past `pa`, as `mappages` computes it in 64 bits. -/
theorem mappages_pa_succ (pa j : ℕ) :
    ((pa + pgSize) % 2 ^ 64 + j * pgSize) % 2 ^ 64 = (pa + (j + 1) * pgSize) % 2 ^ 64 := by
  rw [Nat.mod_add_mod]
  congr 1
  ring

/-- One turn of `mappages`' loop at an unmapped page `a` of a tree in order: `-1` when the free
list runs out in `walk`, or page `a` mapped to the page of `pa` and the loop going on. -/
theorem mappagesLoop_step {perm a pa : ℕ} (last : ℕ) (h : PtOk k root) (hperm : perm < 2 ^ 10)
    (ha : a % pgSize = 0) (hmax : a < maxVa) (hpa : pa < 2 ^ 64)
    (hfree : lookup k.m root (a / pgSize) = none) :
    (∃ k₁ l, mappagesLoop root last perm k a pa = .ok (-1, k₁) ∧ Grew root k k₁ l ∧
      PtOk k₁ root ∧ k₁.free = [] ∧ lookup k₁.m root = lookup k.m root) ∨
    ∃ k₁ l, Grew root k k₁ l ∧ PtOk k₁ root ∧
      (∀ w < 2 ^ 27, lookup k₁.m root w =
        if w = a / pgSize then some (pgrounddown pa, perm ||| pteV) else lookup k.m root w) ∧
      mappagesLoop root last perm k a pa =
        if a = last then .ok (0, k₁)
        else mappagesLoop root last perm k₁ (a + pgSize) ((pa + pgSize) % 2 ^ 64) := by
  obtain ⟨r, k₁, l₁, hw, hg₁, h₁, hl₁, hs₁, hn₁⟩ := walkAlloc_spec h hmax
  have hava : a / pgSize * pgSize = a := Nat.div_mul_cancel (Nat.dvd_of_mod_eq_zero ha)
  rw [mappagesLoop]
  split
  · rename_i heq
    rw [hw] at heq
    cases heq
  · rename_i heq
    rw [hw] at heq
    cases heq
    exact .inl ⟨k₁, l₁, rfl, hg₁, h₁, hn₁ rfl, hl₁⟩
  rename_i pte k₁' heq
  rw [hw] at heq
  cases heq
  -- the page was unmapped, so `walk` found an invalid leaf: no remap
  have hwa : walk k₁.m root (a / pgSize * pgSize) = some pte := by rw [hava]; exact hs₁ pte rfl
  have hv : pteValid (k₁.m pte) = false :=
    pteValid_of_lookup_none (by rw [hl₁]; exact hfree) hwa
  rw [if_neg (by simp [hv])]
  obtain ⟨hv', hpa', hfl⟩ := leaf_pa2pte hpa hperm
  have hg₂ := Grew.store_leaf (v := pa2pte pa ||| perm ||| pteV) h₁.tree hwa
  refine .inr ⟨_, l₁ ++ [], hg₁.trans hg₂, h₁.grew hg₂ (h₁.tree.store_leaf hwa), fun w hw' => ?_,
    rfl⟩
  have ha27 : a / pgSize < 2 ^ 27 := by unfold maxVa pgSize at *; omega
  show lookup (Function.update k₁.m pte (pa2pte pa ||| perm ||| pteV)) root w = _
  rw [lookup_store_leaf h₁.tree hwa ha27 hw', if_pos hv', hpa', hfl, hl₁]

/-- The loop of `mappages` over the `n + 1` pages from `a`, none of them mapped, on a tree in
order: it maps the first `c` of them, the `j`-th to the page of `pa + j * PGSIZE`, and returns 0
when that is all `n + 1`; otherwise -1, when the free list ran out. -/
theorem mappagesLoop_spec {perm : ℕ} (hperm : perm < 2 ^ 10) :
    ∀ (n : ℕ) (k : Kmem) (a pa : ℕ), PtOk k root → a % pgSize = 0 → a + n * pgSize < maxVa →
      pa < 2 ^ 64 → (∀ j ≤ n, lookup k.m root (a / pgSize + j) = none) →
      ∃ c k' l, c ≤ n + 1 ∧
        mappagesLoop root (a + n * pgSize) perm k a pa = .ok (if c = n + 1 then 0 else -1, k') ∧
        Grew root k k' l ∧ PtOk k' root ∧ (c ≤ n → k'.free = []) ∧
        ∀ w < 2 ^ 27, lookup k'.m root w =
          if a / pgSize ≤ w ∧ w < a / pgSize + c then
            some (pgrounddown ((pa + (w - a / pgSize) * pgSize) % 2 ^ 64), perm ||| pteV)
          else lookup k.m root w := by
  intro n
  induction n with
  | zero =>
    intro k a pa h ha hmax hpa hfree
    rcases mappagesLoop_step (a + 0 * pgSize) h hperm ha (by omega) hpa
      (by simpa using hfree 0 le_rfl) with ⟨k₁, l, hrun, hg, h₁, hf, hl⟩ | ⟨k₁, l, hg, h₁, hl, hrun⟩
    · refine ⟨0, k₁, l, by omega, by rw [hrun]; rfl, hg, h₁, fun _ => hf, fun w _ => ?_⟩
      rw [hl, if_neg (by omega)]
    · refine ⟨1, k₁, l, le_rfl, by rw [hrun, if_pos (by simp)]; rfl, hg, h₁,
        fun h => absurd h (by omega), fun w hw => ?_⟩
      rw [hl w hw]
      by_cases hwa : w = a / pgSize
      · rw [if_pos hwa, if_pos (by omega), hwa, Nat.sub_self, Nat.zero_mul, Nat.add_zero,
          Nat.mod_eq_of_lt hpa]
      · rw [if_neg hwa, if_neg (by omega)]
  | succ n ih =>
    intro k a pa h ha hmax hpa hfree
    have hdiv : (a + pgSize) / pgSize = a / pgSize + 1 := by unfold pgSize at *; omega
    rcases mappagesLoop_step (a + (n + 1) * pgSize) h hperm ha (by omega) hpa
      (by simpa using hfree 0 (Nat.zero_le _)) with
      ⟨k₁, l, hrun, hg, h₁, hf, hl⟩ | ⟨k₁, l, hg, h₁, hl, hrun⟩
    · refine ⟨0, k₁, l, by omega, by rw [hrun]; rfl, hg, h₁, fun _ => hf, fun w _ => ?_⟩
      rw [hl, if_neg (by omega)]
    rw [if_neg (by unfold pgSize; omega),
      show a + (n + 1) * pgSize = a + pgSize + n * pgSize by ring] at hrun
    have hfree' : ∀ j ≤ n, lookup k₁.m root ((a + pgSize) / pgSize + j) = none := by
      intro j hj
      rw [hdiv, hl _ (by unfold maxVa pgSize at *; omega), if_neg (by omega),
        show a / pgSize + 1 + j = a / pgSize + (j + 1) by ring]
      exact hfree (j + 1) (by omega)
    obtain ⟨c, k', l', hc, hrun', hg', h', hf', hl'⟩ := ih k₁ (a + pgSize) ((pa + pgSize) % 2 ^ 64)
      h₁ (by unfold pgSize at *; omega) (by unfold pgSize at hmax ⊢; omega)
      (Nat.mod_lt _ (by positivity)) hfree'
    refine ⟨c + 1, k', l ++ l', by omega, ?_, hg.trans hg', h', fun hc' => hf' (by omega),
      fun w hw => ?_⟩
    · rw [show a + (n + 1) * pgSize = a + pgSize + n * pgSize by ring, hrun, hrun']
      simp only [Nat.add_right_cancel_iff]
    rw [hl' w hw, hdiv]
    by_cases hwa : w = a / pgSize
    · rw [if_neg (by omega), hl w hw, if_pos hwa, if_pos (by omega), hwa, Nat.sub_self,
        Nat.zero_mul, Nat.add_zero, Nat.mod_eq_of_lt hpa]
    rw [hl w hw, if_neg hwa]
    by_cases hin : a / pgSize + 1 ≤ w ∧ w < a / pgSize + 1 + c
    · rw [if_pos hin, if_pos (by omega), mappages_pa_succ,
        show w - (a / pgSize + 1) + 1 = w - a / pgSize by omega]
    · rw [if_neg hin, if_neg (by omega)]

theorem pgrounddown_eq (a : ℕ) : pgrounddown a = a / pgSize * pgSize := by
  unfold pgrounddown pgSize
  omega

/-- `mappages(pagetable, va, size, pa, perm)` refines the abstract map: on a tree in order whose
pages `va / PGSIZE .. (va + size - 1) / PGSIZE` are unmapped, with `va + size <= MAXVA` and
`perm` within the flag bits, it never panics. It returns 0 having mapped all those pages, the
`j`-th to the page of `pa + j * PGSIZE` with flags `perm | PTE_V`, or -1, with the free list
empty, having mapped only the first `c` of them; every other page keeps its mapping, and the
new table pages came off the head of the free list. -/
theorem mappages_spec {va size pa perm : ℕ} (h : PtOk k root) (hsize : 0 < size)
    (hmax : va + size ≤ maxVa) (hpa : pa < 2 ^ 64) (hperm : perm < 2 ^ 10)
    (hfree : ∀ w, va / pgSize ≤ w → w ≤ (va + size - 1) / pgSize → lookup k.m root w = none) :
    ∃ r k' l c, mappages k root va size pa perm = .ok (r, k') ∧ PtOk k' root ∧ Grew root k k' l ∧
      c ≤ (va + size - 1) / pgSize + 1 - va / pgSize ∧
      ((r = 0 ∧ c = (va + size - 1) / pgSize + 1 - va / pgSize) ∨ (r = -1 ∧ k'.free = [])) ∧
      ∀ w < 2 ^ 27, lookup k'.m root w =
        if va / pgSize ≤ w ∧ w < va / pgSize + c then
          some (pgrounddown ((pa + (w - va / pgSize) * pgSize) % 2 ^ 64), perm ||| pteV)
        else lookup k.m root w := by
  have hle : va / pgSize ≤ (va + size - 1) / pgSize :=
    Nat.div_le_div_right (show va ≤ va + size - 1 by omega)
  have hmod : (va + size - 1) % 2 ^ 64 = va + size - 1 :=
    Nat.mod_eq_of_lt (by unfold maxVa at hmax; omega)
  have hlast : pgrounddown ((va + size - 1) % 2 ^ 64) =
      pgrounddown va + ((va + size - 1) / pgSize - va / pgSize) * pgSize := by
    rw [hmod, pgrounddown_eq, pgrounddown_eq, ← Nat.add_mul, Nat.add_sub_cancel' hle]
  have hbound : pgrounddown va + ((va + size - 1) / pgSize - va / pgSize) * pgSize < maxVa := by
    rw [← hlast, hmod]
    exact lt_of_le_of_lt (Nat.sub_le _ _) (by omega)
  have hdiv : pgrounddown va / pgSize = va / pgSize := by
    rw [pgrounddown_eq, Nat.mul_div_cancel _ (by decide)]
  obtain ⟨c, k', l, hc, hrun, hg, h', hf', hl'⟩ :=
    mappagesLoop_spec hperm ((va + size - 1) / pgSize - va / pgSize) k (pgrounddown va) pa h
      (by rw [pgrounddown_eq]; exact Nat.mul_mod_left _ _) hbound hpa
      (fun j hj => hfree _ (by rw [hdiv]; omega) (by rw [hdiv]; omega))
  refine ⟨_, k', l, c, by rw [mappages, if_neg hsize.ne', hlast]; exact hrun, h', hg,
    by omega, ?_, fun w hw => by rw [hl' w hw, hdiv]⟩
  by_cases hcn : c = (va + size - 1) / pgSize - va / pgSize + 1
  · exact .inl ⟨if_pos hcn, by omega⟩
  · exact .inr ⟨if_neg hcn, hf' (by omega)⟩


/-- `mappages` of one page into the empty tree of `bootKmem`. -/
theorem mappages_boot :
    ∃ r k', mappages bootKmem kernbase 0 pgSize (kernbase + 0x5000) pteR = .ok (r, k') ∧
      PtOk k' kernbase := by
  obtain ⟨r, k', -, -, hrun, h, -⟩ := mappages_spec (bootKmem_ptOk (.inl rfl))
    (show 0 < pgSize by decide) (show 0 + pgSize ≤ maxVa by decide)
    (show kernbase + 0x5000 < 2 ^ 64 by decide) (show pteR < 2 ^ 10 by decide)
    fun w _ _ => bootKmem_lookup kernbase w
  exact ⟨r, k', hrun, h⟩
/-! ### `uvmunmap` -/

/-- `kfree` of a page outside the tree and off the free list keeps the tree and its map. -/
theorem PtOk.kfree {pa : ℕ} (h : PtOk k root) (hp : k.Page pa) (hn : pa ∉ k.free)
    (hnt : ¬ IsTable k.m root pa) :
    ∃ k', kfree k pa = .ok k' ∧ PtOk k' root ∧ k'.free = pa :: k.free ∧ k'.kend = k.kend ∧
      AgreeInner k.m k'.m root ∧ (∀ x, IsTable k'.m root x ↔ IsTable k.m root x) ∧
      lookup k'.m root = lookup k.m root ∧ k.Frame k' (· = pa) := by
  have hf : k.Frame { k.memset pa 1 with free := pa :: k.free } (· = pa) := fun a ha =>
    frame_memset k hp.aligned 1 a ha
  have hin := agreeInner_of_frame hf fun x hx hxp => hnt (hxp ▸ hx)
  have htab := isTable_congr h.tree hin
  refine ⟨_, kfree_ok hp, ⟨h.tree.congr hin, h.ok.push hp hn, fun x hx hfx => ?_,
    fun x hx => (h.page x ((htab x).1 hx)).congr rfl⟩, rfl, rfl, hin,
    htab, lookup_frame h.tree hf fun x hx hxp => hnt (hxp ▸ hx), hf⟩
  rw [htab] at hx
  rcases List.mem_cons.1 hfx with rfl | hfx
  · exact hnt hx
  · exact h.not_free x hx hfx

/-- The loop of `uvmunmap` from `a` while below `stop`: each page must have a valid leaf PTE
with more flags than `PTE_V`; its page is freed when `doFree` is set, and the PTE cleared. -/
def uvmunmapLoop (pagetable stop : ℕ) (doFree : Bool) (k : Kmem) (a : ℕ) : Except String Kmem :=
  if a < stop then
    if maxVa ≤ a then .error "walk"
    else
      match walk k.m pagetable a with
      | none => .error "uvmunmap: walk"
      | some pte =>
        if pteValid (k.m pte) = false then .error "uvmunmap: not mapped"
        else if k.m pte % 2 ^ 10 = pteV then .error "uvmunmap: not a leaf"
        else do
          let k ← if doFree then kfree k (pte2pa (k.m pte)) else pure k
          uvmunmapLoop pagetable stop doFree (k.store pte 0) (a + pgSize)
  else .ok k
termination_by stop - a
decreasing_by unfold pgSize; omega

/-- `uvmunmap(pagetable, va, npages, do_free)`. -/
def uvmunmap (k : Kmem) (pagetable va npages : ℕ) (doFree : Bool) : Except String Kmem :=
  if va % pgSize ≠ 0 then .error "uvmunmap: not aligned"
  else uvmunmapLoop pagetable ((va + npages * pgSize) % 2 ^ 64) doFree k va

/-- One turn of the loop of `uvmunmap` at a mapped leaf: free its page when asked, clear the
entry and go on with the next page. -/
theorem uvmunmapLoop_turn {stop a pte : ℕ} {doFree : Bool} {k' : Kmem} (hlt : a < stop)
    (hmax : a < maxVa) (hw : walk k.m root a = some pte) (hv : pteValid (k.m pte) = true)
    (hfl : k.m pte % 2 ^ 10 ≠ pteV)
    (hk : (if doFree then kfree k (pte2pa (k.m pte)) else pure k) = .ok k') :
    uvmunmapLoop root stop doFree k a = uvmunmapLoop root stop doFree (k'.store pte 0) (a + pgSize) := by
  rw [uvmunmapLoop, if_pos hlt, if_neg (Nat.not_le.2 hmax), hw]
  simp only [hv, Bool.true_eq_false, if_false, if_neg hfl]
  -- close with `pure_bind`: a `rfl` here would make the kernel unfold the loop's `WellFounded.fix`
  cases doFree with
  | false =>
    simp only [Bool.false_eq_true, if_false] at hk ⊢
    cases hk
    exact pure_bind _ _
  | true =>
    simp only [if_true] at hk ⊢
    rw [hk]
    exact pure_bind _ _

/-- Virtual pages `v .. v + n - 1` are mapped by leaves with more flags than `PTE_V`, the `j`-th
to the page `pas j`: what `uvmunmap` asks of its range. -/
def MappedRun (m : PteMem) (root : ℕ) (pas : ℕ → ℕ) (v n : ℕ) : Prop :=
  ∀ j < n, ∃ fl, fl ≠ pteV ∧ lookup m root (v + j) = some (pas j, fl)

/-- The pages `pas j`, `j < n`, can be freed one after the other: distinct pages `kfree` accepts,
neither on the free list nor tables of the tree. -/
structure Freeable (k : Kmem) (root : ℕ) (pas : ℕ → ℕ) (n : ℕ) : Prop where
  page : ∀ j < n, k.Page (pas j)
  not_free : ∀ j < n, pas j ∉ k.free
  not_table : ∀ j < n, ¬ IsTable k.m root (pas j)
  nodup : ((List.range n).map pas).Nodup

/-- What unmapping the virtual pages `v .. v + n - 1`, the `j`-th mapped to `pas j`, leaves: the
tree as it was, with those pages unmapped and, when `doFree` is set, freed in order. -/
structure Unmapped (root : ℕ) (k k' : Kmem) (doFree : Bool) (pas : ℕ → ℕ) (v n : ℕ) : Prop where
  ok : PtOk k' root
  free : k'.free = (if doFree then ((List.range n).map pas).reverse else []) ++ k.free
  kend : k'.kend = k.kend
  tables : ∀ x, IsTable k'.m root x ↔ IsTable k.m root x
  frame : k.Frame k' fun x => IsTable k.m root x ∨ (doFree = true ∧ ∃ j < n, x = pas j)
  map : ∀ w < 2 ^ 27, lookup k'.m root w = if v ≤ w ∧ w < v + n then none else lookup k.m root w

theorem Unmapped.zero (h : PtOk k root) (doFree : Bool) (pas : ℕ → ℕ) (v : ℕ) :
    Unmapped root k k doFree pas v 0 :=
  ⟨h, by simp, rfl, fun _ => Iff.rfl, Kmem.Frame.refl _ _, fun w _ => by rw [if_neg (by omega)]⟩

theorem Unmapped.trans {doFree : Bool} {pas : ℕ → ℕ} {v n₁ n₂ : ℕ}
    (h₁ : Unmapped root k k' doFree pas v n₁)
    (h₂ : Unmapped root k' k'' doFree (fun j => pas (n₁ + j)) (v + n₁) n₂) :
    Unmapped root k k'' doFree pas v (n₁ + n₂) := by
  refine ⟨h₂.ok, ?_, h₂.kend.trans h₁.kend, fun x => (h₂.tables x).trans (h₁.tables x), ?_,
    fun w hw => ?_⟩
  · rw [h₂.free, h₁.free, List.range_add, List.map_append, List.map_map]
    cases doFree <;> simp [Function.comp_def]
  · refine (h₁.frame.trans h₂.frame).mono fun x hx => ?_
    rcases hx with (hx | ⟨hd, j, hj, rfl⟩) | (hx | ⟨hd, j, hj, rfl⟩)
    · exact .inl hx
    · exact .inr ⟨hd, j, by omega, rfl⟩
    · exact .inl ((h₁.tables x).1 hx)
    · exact .inr ⟨hd, n₁ + j, by omega, rfl⟩
  · rw [h₂.map w hw, h₁.map w hw]
    split_ifs <;> first | rfl | omega

/-- The pages after the first of a run that can be freed, once the first is freed. -/
theorem Freeable.tail {pas : ℕ → ℕ} {n : ℕ} (hf : Freeable k root pas (n + 1))
    (he : k'.kend = k.kend) (hfree : k'.free = [pas 0] ++ k.free)
    (ht : ∀ x, IsTable k'.m root x ↔ IsTable k.m root x) :
    Freeable k' root (fun j => pas (1 + j)) n := by
  have hnd := hf.nodup
  rw [List.range_succ_eq_map, List.map_cons, List.map_map, List.nodup_cons] at hnd
  refine ⟨fun j hj => (hf.page (1 + j) (by omega)).congr he, fun j hj => ?_,
    fun j hj => by rw [ht]; exact hf.not_table (1 + j) (by omega), ?_⟩
  · rw [hfree, List.singleton_append, List.mem_cons, not_or]
    refine ⟨fun h => hnd.1 (List.mem_map.2 ⟨j, List.mem_range.2 hj, ?_⟩),
      hf.not_free (1 + j) (by omega)⟩
    rw [Function.comp_apply, ← h, Nat.add_comm]
  · convert hnd.2 using 2
    funext j
    rw [Function.comp_apply, Nat.add_comm]

/-- One turn of `uvmunmap`'s loop at a page mapped with more flags than `PTE_V`: the page is
unmapped, and freed when `doFree` is set. -/
theorem uvmunmapLoop_step {stop a fl : ℕ} {doFree : Bool} {pas : ℕ → ℕ} (h : PtOk k root)
    (ha : a % pgSize = 0) (hmax : a < maxVa) (hlt : a < stop)
    (hl : lookup k.m root (a / pgSize) = some (pas 0, fl)) (hfl : fl ≠ pteV)
    (hfree : doFree = true → k.Page (pas 0) ∧ pas 0 ∉ k.free ∧ ¬ IsTable k.m root (pas 0)) :
    ∃ k₁, uvmunmapLoop root stop doFree k a = uvmunmapLoop root stop doFree k₁ (a + pgSize) ∧
      Unmapped root k k₁ doFree pas (a / pgSize) 1 := by
  obtain ⟨pte, hw, hv, hpa, rfl⟩ := lookup_eq_some hl
  have hava : a / pgSize * pgSize = a := Nat.div_mul_cancel (Nat.dvd_of_mod_eq_zero ha)
  have ha27 : a / pgSize < 2 ^ 27 := by unfold maxVa pgSize at *; omega
  have hw' := hw
  rw [hava] at hw
  -- the leaf entry lies in a table page: clearing it is a frame on the tree
  have hleaf : ∀ x, x = pgrounddown pte → IsTable k.m root x := by
    rintro x rfl
    obtain ⟨t₀, h₀, rfl⟩ := exists_leaf_table hw'
    rw [pgrounddown_entry (h.tree.table_mod h₀) (Nat.mod_lt _ (by decide))]
    exact ⟨_, isPath_vpnPath _, h₀⟩
  -- clearing the leaf unmaps page `a / PGSIZE` and nothing else
  have hclear : ∀ k' : Kmem, Tree k'.m root → walk k'.m root (a / pgSize * pgSize) = some pte →
      ∀ w < 2 ^ 27, lookup (k'.store pte 0).m root w =
        if a / pgSize ≤ w ∧ w < a / pgSize + 1 then none else lookup k'.m root w := by
    intro k' ht' hw'' w hw
    show lookup (Function.update k'.m pte 0) root w = _
    rw [lookup_store_leaf ht' hw'' ha27 hw]
    simp only [show pteValid 0 = false from rfl, Bool.false_eq_true, if_false]
    split_ifs <;> first | rfl | omega
  cases doFree with
  | false =>
    have hg := Grew.store_leaf (v := 0) h.tree hw'
    refine ⟨k.store pte 0, uvmunmapLoop_turn hlt hmax hw hv hfl rfl,
      ⟨h.grew hg (h.tree.store_leaf hw'), rfl, rfl, fun x => ?_,
        (frame_store k pte 0).mono fun x hx => .inl (hleaf x hx), hclear k h.tree hw'⟩⟩
    rw [hg.tables, List.mem_nil_iff, or_false]
  | true =>
    obtain ⟨hp, hn, hnt⟩ := hfree rfl
    obtain ⟨k', hk', h', hf', he', hin, htab, hlk, hfr⟩ := h.kfree hp hn hnt
    have hwk : walk k'.m root (a / pgSize * pgSize) = some pte := by
      rw [walk_congr h.tree hin]; exact hw'
    have hg := Grew.store_leaf (v := 0) h'.tree hwk
    refine ⟨k'.store pte 0, uvmunmapLoop_turn hlt hmax hw hv hfl (by rw [if_pos rfl, hpa]; exact hk'),
      ⟨h'.grew hg (h'.tree.store_leaf hwk), by simp [hf'], he', fun x => ?_, ?_, fun w hw'' => ?_⟩⟩
    · rw [hg.tables, List.mem_nil_iff, or_false, htab]
    · exact (hfr.trans (frame_store k' pte 0)).mono fun x hx =>
        hx.elim (fun hx => .inr ⟨rfl, 0, Nat.one_pos, hx⟩) fun hx => .inl (hleaf x hx)
    · rw [hclear k' h'.tree hwk w hw'', hlk]

theorem uvmunmapLoop_done {stop a : ℕ} {doFree : Bool} (k : Kmem) (h : ¬ a < stop) :
    uvmunmapLoop root stop doFree k a = .ok k := by
  rw [uvmunmapLoop, if_neg h]

/-- On an aligned range below `MAXVA`, `uvmunmap` is its loop up to the end of the range. -/
theorem uvmunmap_eq {va npages : ℕ} {doFree : Bool} (ha : va % pgSize = 0)
    (hmax : va + npages * pgSize ≤ maxVa) :
    uvmunmap k root va npages doFree = uvmunmapLoop root (va + npages * pgSize) doFree k va := by
  have hstop : (va + npages * pgSize) % 2 ^ 64 = va + npages * pgSize :=
    Nat.mod_eq_of_lt (by unfold maxVa at hmax; omega)
  rw [uvmunmap, if_neg (not_not.2 ha), hstop]

/-- `n` turns of `uvmunmap`'s loop from `a` over a run of mapped pages (that can be freed, when
they are to be): the loop reaches `a + n * PGSIZE` with the run unmapped. -/
theorem uvmunmapLoop_run {stop : ℕ} {doFree : Bool} :
    ∀ (n : ℕ) (pas : ℕ → ℕ) (k : Kmem) (a : ℕ), PtOk k root → a % pgSize = 0 →
      a + n * pgSize ≤ maxVa → a + n * pgSize ≤ stop → MappedRun k.m root pas (a / pgSize) n →
      (doFree = true → Freeable k root pas n) →
      ∃ k', uvmunmapLoop root stop doFree k a = uvmunmapLoop root stop doFree k' (a + n * pgSize) ∧
        Unmapped root k k' doFree pas (a / pgSize) n := by
  intro n
  induction n with
  | zero =>
    intro pas k a h _ _ _ _ _
    exact ⟨k, by rw [Nat.zero_mul, Nat.add_zero], Unmapped.zero h doFree pas _⟩
  | succ n ih =>
    intro pas k a h ha hmax hstop hmap hfree
    have hdiv : (a + pgSize) / pgSize = a / pgSize + 1 := by unfold pgSize at *; omega
    obtain ⟨fl, hfl, hl⟩ := hmap 0 (Nat.succ_pos n)
    rw [Nat.add_zero] at hl
    obtain ⟨k₁, hrun, h₁⟩ := uvmunmapLoop_step h ha (by unfold pgSize at *; omega)
      (show a < stop by unfold pgSize at *; omega) hl hfl
      fun hd => ⟨(hfree hd).page 0 (Nat.succ_pos n), (hfree hd).not_free 0 (Nat.succ_pos n),
        (hfree hd).not_table 0 (Nat.succ_pos n)⟩
    -- the pages after the first keep their mappings
    have hmap' : MappedRun k₁.m root (fun j => pas (1 + j)) ((a + pgSize) / pgSize) n := by
      intro j hj
      rw [hdiv, h₁.map _ (by unfold maxVa pgSize at *; omega), if_neg (by omega),
        show a / pgSize + 1 + j = a / pgSize + (1 + j) by ring]
      exact hmap (1 + j) (by omega)
    have hfree' : doFree = true → Freeable k₁ root (fun j => pas (1 + j)) n := fun hd =>
      (hfree hd).tail h₁.kend (by rw [h₁.free, if_pos hd]; rfl) h₁.tables
    obtain ⟨k', hrun', h'⟩ := ih (fun j => pas (1 + j)) k₁ (a + pgSize) h₁.ok
      (by unfold pgSize at *; omega) (by unfold pgSize at *; omega)
      (by unfold pgSize at *; omega) hmap' hfree'
    refine ⟨k', ?_, Nat.add_comm n 1 ▸ h₁.trans (hdiv ▸ h')⟩
    rw [hrun, hrun', show a + pgSize + n * pgSize = a + (n + 1) * pgSize by ring]

/-- `uvmunmap(pagetable, va, npages, do_free)` refines the abstract map: on a tree in order, with
`va` aligned, the range below `MAXVA` and its `j`-th page mapped to `pas j` with more flags than
`PTE_V`, it never panics; it unmaps exactly those pages, frees them in order when `do_free` is
set (given that they are distinct pages `kfree` accepts, neither free nor tables), and leaves the
tree, and every page other than the tables and the freed pages, as they were. -/
theorem uvmunmap_spec {va npages : ℕ} {doFree : Bool} (pas : ℕ → ℕ) (h : PtOk k root)
    (ha : va % pgSize = 0) (hmax : va + npages * pgSize ≤ maxVa)
    (hmap : MappedRun k.m root pas (va / pgSize) npages)
    (hfree : doFree = true → Freeable k root pas npages) :
    ∃ k', uvmunmap k root va npages doFree = .ok k' ∧
      Unmapped root k k' doFree pas (va / pgSize) npages := by
  obtain ⟨k', hrun, hu⟩ := uvmunmapLoop_run npages pas k va h ha hmax le_rfl hmap hfree
  refine ⟨k', ?_, hu⟩
  rw [uvmunmap_eq ha hmax, hrun, uvmunmapLoop_done _ (lt_irrefl _)]


/-- `uvmunmap` of no pages of the empty tree of `bootKmem`. -/
example :
    ∃ k', uvmunmap bootKmem kernbase 0 0 true = .ok k' ∧
      Unmapped kernbase bootKmem k' true (fun _ => 0) (0 / pgSize) 0 :=
  uvmunmap_spec (fun _ => 0) (bootKmem_ptOk (.inl rfl)) (by decide) (by decide)
    (fun j hj => absurd hj (Nat.not_lt_zero j))
    fun _ => ⟨fun j hj => absurd hj (Nat.not_lt_zero j), fun j hj => absurd hj (Nat.not_lt_zero j),
      fun j hj => absurd hj (Nat.not_lt_zero j), List.nodup_nil⟩
end Xv6.Vm
