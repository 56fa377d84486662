import Mathlib
import Xv6.Vm.Uvm

/-!
# Freeing a page table (`freewalk`, `uvmfree` of `kernel/vm.c`)

`freewalk` goes through the 512 entries of a table: a valid entry without `PTE_R`, `PTE_W` or
`PTE_X` points to a table, which it frees first and then clears; a valid entry with them is a
leaf, and a panic. Last it frees the table itself. `uvmfree` unmaps and frees a process's pages
`[0, PGROUNDUP(sz))` and then frees the tree with `freewalk`.

`subtree m d t` lists the pages `freewalk` frees from the table at `t`, `d` levels above the
last, in the order it frees them; `Bare m d t` says that the walk finds no leaf down there.

* `mem_subtree`: the pages of `subtree` are the tables on paths from `t`; `subtree_nodup`: no
  page twice when distinct paths reach distinct tables;
* `freewalk_subtree`: `freewalk` with enough depth frees exactly `subtree`, in order;
* `freewalk_spec`, `uvmfree_spec`: on a tree in order, `freewalk` frees exactly its tables and
  `uvmfree` every page the process holds, each once.
-/

namespace Xv6.Vm

/-- The body of `freewalk`'s loop at entry `i` of the table at `pagetable`, with `rec` the
recursive call: a valid entry without `PTE_R`, `PTE_W` or `PTE_X` points to a table, freed
before the entry is cleared; a valid one with them is a leaf, and a panic. -/
def freewalkEntry (rec : Kmem → ℕ → Except String Kmem) (pagetable : ℕ) (k : Kmem) (i : ℕ) :
    Except String Kmem :=
  let pte := k.m (pagetable + 8 * i)
  if pteValid pte && !pteRwx pte then do
    let k ← rec k (pte2pa pte)
    pure (k.store (pagetable + 8 * i) 0)
  else if pteValid pte then .error "freewalk: leaf"
  else pure k

/-- `freewalk(pagetable)`, with its recursion cut at depth `fuel` (reported as an error the C
code does not have): a tree's three levels need three. -/
def freewalk : ℕ → Kmem → ℕ → Except String Kmem
  | 0, _, _ => .error "freewalk: depth"
  | fuel + 1, k, pagetable => do
    let k ← (List.range 512).foldlM (freewalkEntry (freewalk fuel) pagetable) k
    kfree k pagetable

/-- `uvmfree(pagetable, sz)`: unmap and free the pages below `PGROUNDUP(sz)`, then the tree. -/
def uvmfree (k : Kmem) (pagetable sz : ℕ) : Except String Kmem := do
  let k ← if 0 < sz then uvmunmap k pagetable 0 (pgroundup sz / pgSize) true else pure k
  freewalk 3 k pagetable

/-- The pages `freewalk` frees from the table at `t`, `d` levels above the last: the subtrees
under its valid entries, in order, then `t`. -/
def subtree (m : PteMem) : ℕ → ℕ → List ℕ
  | 0, t => [t]
  | d + 1, t => ((List.range 512).filterMap (child m t)).flatMap (subtree m d) ++ [t]

/-- The subtrees under the first `n` entries of the table at `t`. -/
def subtreesBelow (m : PteMem) (d t n : ℕ) : List ℕ :=
  ((List.range n).filterMap (child m t)).flatMap (subtree m d)

/-- The table at `t` as `freewalk` finds it `d` levels down: above the last level every valid
entry points to a table (no `PTE_R`, `PTE_W`, `PTE_X`); the last level has no valid entry. -/
def Bare (m : PteMem) : ℕ → ℕ → Prop
  | 0, t => ∀ i < 512, pteValid (entry m t i) = false
  | d + 1, t => ∀ i < 512, pteValid (entry m t i) = true →
      pteRwx (entry m t i) = false ∧ Bare m d (pte2pa (entry m t i))

variable {m m' : PteMem} {root : ℕ}

/-! ### The pages of a subtree -/

theorem subtree_succ (d t : ℕ) : subtree m (d + 1) t = subtreesBelow m d t 512 ++ [t] := rfl

theorem subtreesBelow_succ (d t n : ℕ) :
    subtreesBelow m d t (n + 1) =
      subtreesBelow m d t n ++ ((child m t n).map (subtree m d)).getD [] := by
  unfold subtreesBelow
  rw [List.range_succ, List.filterMap_append, List.flatMap_append]
  cases hc : child m t n <;> simp [hc]

theorem isPrefix_subtreesBelow {d t n : ℕ} (hn : n ≤ 512) :
    subtreesBelow m d t n <+: subtreesBelow m d t 512 := by
  unfold subtreesBelow
  rw [show 512 = n + (512 - n) by omega, List.range_add, List.filterMap_append,
    List.flatMap_append]
  exact List.prefix_append _ _

theorem mem_subtreesBelow {d t n x : ℕ} :
    x ∈ subtreesBelow m d t n ↔ ∃ i < n, ∃ c, child m t i = some c ∧ x ∈ subtree m d c := by
  simp only [subtreesBelow, List.mem_flatMap, List.mem_filterMap, List.mem_range]
  constructor
  · rintro ⟨c, ⟨i, hi, hc⟩, hx⟩
    exact ⟨i, hi, c, hc, hx⟩
  · rintro ⟨i, hi, c, hc, hx⟩
    exact ⟨c, ⟨i, hi, hc⟩, hx⟩

/-- The pages of `subtree m d t` are the tables on paths of at most `d` indices from `t`. -/
theorem mem_subtree : ∀ (d t x : ℕ), x ∈ subtree m d t ↔
    ∃ p : List ℕ, p.length ≤ d ∧ (∀ i ∈ p, i < 512) ∧ p.foldlM (child m) t = some x
  | 0, t, x => by
    simp only [subtree, List.mem_singleton, Nat.le_zero, List.length_eq_zero_iff]
    constructor
    · rintro rfl
      exact ⟨[], rfl, fun _ h => absurd h List.not_mem_nil, rfl⟩
    · rintro ⟨p, rfl, -, h⟩
      exact (Option.some.inj h).symm
  | d + 1, t, x => by
    rw [subtree_succ, List.mem_append, mem_subtreesBelow, List.mem_singleton]
    constructor
    · rintro (⟨i, hi, c, hc, hx⟩ | rfl)
      · obtain ⟨p, hp, hpi, hpx⟩ := (mem_subtree d c x).1 hx
        refine ⟨i :: p, by simp [hp], fun j hj => ?_, by simp [List.foldlM_cons, hc, hpx]⟩
        rcases List.mem_cons.1 hj with rfl | hj
        · exact hi
        · exact hpi j hj
      · exact ⟨[], Nat.zero_le _, fun _ h => absurd h List.not_mem_nil, rfl⟩
    · rintro ⟨p, hp, hpi, hpx⟩
      cases p with
      | nil => exact .inr (Option.some.inj hpx).symm
      | cons i p =>
        rw [List.foldlM_cons] at hpx
        cases hc : child m t i with
        | none => simp [hc] at hpx
        | some c =>
          simp only [hc] at hpx
          refine .inl ⟨i, hpi i List.mem_cons_self, c, hc, (mem_subtree d c x).2
            ⟨p, by simpa using hp, fun j hj => hpi j (List.mem_cons_of_mem _ hj), hpx⟩⟩

/-- The pages of the whole tree are its tables. -/
theorem mem_subtree_two (x : ℕ) : x ∈ subtree m 2 root ↔ IsTable m root x := by
  rw [mem_subtree]
  simp only [IsTable, IsPath, tableAt, and_assoc]

/-- No page twice in a subtree whose tables are reached by one path each. -/
theorem subtree_nodup : ∀ (d t : ℕ), (∀ (p q : List ℕ) (x : ℕ), p.length ≤ d → q.length ≤ d →
    (∀ i ∈ p, i < 512) → (∀ i ∈ q, i < 512) → p.foldlM (child m) t = some x →
    q.foldlM (child m) t = some x → p = q) → (subtree m d t).Nodup
  | 0, _, _ => List.nodup_singleton _
  | d + 1, t, hinj => by
    -- a path through entry `i` of `t`, for the subtree under it
    have hsub : ∀ i < 512, ∀ c, child m t i = some c → ∀ x ∈ subtree m d c,
        ∃ p : List ℕ, p.length ≤ d ∧ (∀ j ∈ p, j < 512) ∧
          (i :: p).foldlM (child m) t = some x := by
      intro i hi c hc x hx
      obtain ⟨p, hp, hpi, hpx⟩ := (mem_subtree d c x).1 hx
      exact ⟨p, hp, hpi, by simp [List.foldlM_cons, hc, hpx]⟩
    rw [subtree_succ, List.nodup_append]
    refine ⟨?_, List.nodup_singleton _, ?_⟩
    · rw [subtreesBelow, List.nodup_flatMap]
      refine ⟨fun c hc => ?_, ?_⟩
      · obtain ⟨i, hi, hci⟩ := List.mem_filterMap.1 hc
        refine subtree_nodup d c fun p q x hp hq hpi hqi hpx hqx => ?_
        have := hinj (i :: p) (i :: q) x (by simpa using hp) (by simpa using hq)
          (by simpa [List.mem_range.1 hi] using hpi) (by simpa [List.mem_range.1 hi] using hqi)
          (by simp [List.foldlM_cons, hci, hpx]) (by simp [List.foldlM_cons, hci, hqx])
        exact List.cons.inj this |>.2
      · rw [List.pairwise_filterMap]
        refine List.pairwise_lt_range.imp_of_mem fun {i j} hi hj hij c hc c' hc' x hx hx' => ?_
        obtain ⟨p, hp, hpi, hpx⟩ := hsub i (List.mem_range.1 hi) c hc x hx
        obtain ⟨q, hq, hqi, hqx⟩ := hsub j (List.mem_range.1 hj) c' hc' x hx'
        have := hinj _ _ x (by simpa using hp) (by simpa using hq)
          (by simpa [List.mem_range.1 hi] using hpi) (by simpa [List.mem_range.1 hj] using hqi)
          hpx hqx
        exact absurd (List.cons.inj this).1 hij.ne
    · -- `t` itself is reached by the empty path only
      intro x hx y hy hxy
      rw [List.mem_singleton] at hy
      subst hy hxy
      obtain ⟨i, hi, c, hc, hx⟩ := mem_subtreesBelow.1 hx
      obtain ⟨p, hp, hpi, hpx⟩ := hsub i hi c hc x hx
      exact List.cons_ne_nil _ _ (hinj _ [] x (by simpa using hp) (Nat.zero_le _)
        (by simpa [hi] using hpi) (fun _ h => absurd h List.not_mem_nil) hpx rfl)

/-- A subtree reads only its own pages. -/
theorem subtree_congr (d : ℕ) : ∀ t, (∀ x ∈ subtree m d t, x % pgSize = 0) →
    (∀ a, pgrounddown a ∈ subtree m d t → m' a = m a) →
    subtree m' d t = subtree m d t ∧ (Bare m' d t ↔ Bare m d t) := by
  induction d with
  | zero =>
    intro t hal hm
    have ht : t ∈ subtree m 0 t := List.mem_singleton_self t
    have he : ∀ i < 512, entry m' t i = entry m t i := fun i hi =>
      hm _ (by rw [pgrounddown_entry (hal t ht) hi]; exact ht)
    refine ⟨rfl, forall₂_congr fun i hi => ?_⟩
    rw [he i hi]
  | succ d ih =>
    intro t hal hm
    have ht : t ∈ subtree m (d + 1) t := by
      rw [subtree_succ]; exact List.mem_append_right _ (List.mem_singleton_self t)
    have he : ∀ i < 512, entry m' t i = entry m t i := fun i hi =>
      hm _ (by rw [pgrounddown_entry (hal t ht) hi]; exact ht)
    have hc : ∀ i < 512, child m' t i = child m t i := fun i hi => by simp only [child, he i hi]
    -- the subtree under entry `i` is a part of this one
    have hsub : ∀ i < 512, ∀ c, child m t i = some c → ∀ x ∈ subtree m d c,
        x ∈ subtree m (d + 1) t := fun i hi c hc x hx => by
      rw [subtree_succ, List.mem_append, mem_subtreesBelow]
      exact .inl ⟨i, hi, c, hc, hx⟩
    have hrec : ∀ i < 512, ∀ c, child m t i = some c →
        subtree m' d c = subtree m d c ∧ (Bare m' d c ↔ Bare m d c) := fun i hi c hci =>
      ih c (fun x hx => hal x (hsub i hi c hci x hx)) fun a ha => hm a (hsub i hi c hci _ ha)
    refine ⟨?_, forall₂_congr fun i hi => ?_⟩
    · have hflat : ((List.range 512).filterMap (child m t)).flatMap (subtree m' d) =
          ((List.range 512).filterMap (child m t)).flatMap (subtree m d) :=
        List.flatMap_congr fun c hc' => by
          obtain ⟨i, hi, hci⟩ := List.mem_filterMap.1 hc'
          exact (hrec i (List.mem_range.1 hi) c hci).1
      rw [subtree_succ, subtree_succ, subtreesBelow, subtreesBelow,
        List.filterMap_congr fun i hi => hc i (List.mem_range.1 hi), hflat]
    · rw [he i hi]
      refine imp_congr_right fun hv => and_congr_right fun _ => (hrec i hi _ ?_).2
      simp only [child, hv, if_true]

/-! ### `freewalk` frees a subtree -/

/-- `freewalk` with `fuel` frees the subtree at any `t`, `d` levels above the last, that is bare,
has no page twice and all of whose pages `kfree` accepts: exactly its pages, in order, and
changes nothing else. -/
def FreesSubtree (fuel d : ℕ) : Prop :=
  ∀ (k : Kmem) (t : ℕ), Bare k.m d t → (subtree k.m d t).Nodup →
    (∀ x ∈ subtree k.m d t, k.Page x) →
    ∃ k', freewalk fuel k t = .ok k' ∧ k'.free = (subtree k.m d t).reverse ++ k.free ∧
      k'.kend = k.kend ∧ k.Frame k' (· ∈ subtree k.m d t)

theorem foldlM_range_succ {f : Kmem → ℕ → Except String Kmem} {k k' : Kmem} {n : ℕ}
    (h : (List.range n).foldlM f k = .ok k') :
    (List.range (n + 1)).foldlM f k = f k' n := by
  rw [List.range_succ, List.foldlM_append, h]
  simp only [List.foldlM_cons, List.foldlM_nil, bind_pure]
  rfl

/-- Over entries that are all invalid, `freewalk`'s loop changes nothing. -/
theorem foldlM_freewalkEntry_invalid {rec : Kmem → ℕ → Except String Kmem} {k : Kmem} {t : ℕ} :
    ∀ n, (∀ i < n, pteValid (k.m (t + 8 * i)) = false) →
      (List.range n).foldlM (freewalkEntry rec t) k = .ok k
  | 0, _ => rfl
  | n + 1, h => by
    rw [foldlM_range_succ (foldlM_freewalkEntry_invalid n fun i hi => h i (by omega))]
    simp only [freewalkEntry, h n (by omega), Bool.false_and, Bool.false_eq_true, if_false]
    rfl

section Fold

variable {d t : ℕ} {k : Kmem} (hrec : FreesSubtree (d + 1) d) (hbare : Bare k.m (d + 1) t)
  (hnd : (subtree k.m (d + 1) t).Nodup) (hpg : ∀ x ∈ subtree k.m (d + 1) t, k.Page x)
include hrec hbare hnd hpg

/-- The first `n` entries of `freewalk`'s loop on a bare table: the subtrees under them freed in
order, the table's own page changed only in those entries. -/
theorem freewalk_fold : ∀ n ≤ 512,
    ∃ k', (List.range n).foldlM (freewalkEntry (freewalk (d + 1)) t) k = .ok k' ∧
      k'.free = (subtreesBelow k.m d t n).reverse ++ k.free ∧ k'.kend = k.kend ∧
      k.Frame k' (fun x => x ∈ subtreesBelow k.m d t n ∨ x = t) ∧
      ∀ i, n ≤ i → i < 512 → k'.m (t + 8 * i) = k.m (t + 8 * i)
  | 0, _ => ⟨k, rfl, by simp [subtreesBelow], rfl, Kmem.Frame.refl _ _, fun _ _ _ => rfl⟩
  | n + 1, hn => by
    obtain ⟨kₙ, hfold, hf, he, hfr, hent⟩ := freewalk_fold n (by omega)
    have ht : t ∈ subtree k.m (d + 1) t := by
      rw [subtree_succ]; exact List.mem_append_right _ (List.mem_singleton_self t)
    have hal : t % pgSize = 0 := (hpg t ht).aligned
    have hpte : kₙ.m (t + 8 * n) = entry k.m t n := hent n le_rfl (by omega)
    -- what is left of the tree after entry `n` has no page twice
    have hpre : (subtreesBelow k.m d t (n + 1) ++ [t]).Nodup :=
      ((isPrefix_subtreesBelow hn).sublist.append_right [t]).nodup hnd
    rw [foldlM_range_succ hfold]
    by_cases hv : pteValid (entry k.m t n) = true
    · -- a table under entry `n`: free its subtree, then clear the entry
      obtain ⟨hrwx, hbc⟩ := hbare n (by omega) hv
      set c := pte2pa (entry k.m t n) with hc
      have hchild : child k.m t n = some c := by simp only [child, hv, if_true, hc]
      rw [subtreesBelow_succ, hchild, Option.map_some, Option.getD_some] at hpre ⊢
      have hsub : ∀ x ∈ subtree k.m d c, x ∈ subtree k.m (d + 1) t := fun x hx => by
        rw [subtree_succ, List.mem_append, mem_subtreesBelow]
        exact .inl ⟨n, by omega, c, hchild, hx⟩
      have hdisj : ∀ x ∈ subtree k.m d c, ¬ (x ∈ subtreesBelow k.m d t n ∨ x = t) := by
        rintro x hx (hx' | rfl)
        · exact List.disjoint_of_nodup_append (List.nodup_append.1 hpre).1 hx' hx
        · exact List.disjoint_of_nodup_append hpre (List.mem_append_right _ hx)
            (List.mem_singleton_self _)
      obtain ⟨hsc, hbc'⟩ := @subtree_congr k.m kₙ.m d c
        (fun x hx => (hpg x (hsub x hx)).aligned) fun a ha => hfr a (hdisj _ ha)
      obtain ⟨k', hk', hf', he', hfr'⟩ := hrec kₙ c (hbc'.2 hbc)
        (by rw [hsc]; exact (List.nodup_append.1 (List.nodup_append.1 hpre).1).2.1)
        (by rw [hsc]; exact fun x hx => (hpg x (hsub x hx)).congr he)
      rw [hsc] at hf' hfr'
      refine ⟨k'.store (t + 8 * n) 0, ?_, ?_, by rw [Kmem.store_kend, he', he], ?_,
        fun i hi hi' => ?_⟩
      · simp [freewalkEntry, hpte, hv, hrwx, ← hc, hk']
      · rw [Kmem.store_free, hf', hf, List.reverse_append, List.append_assoc]
      · refine ((hfr.trans hfr').trans (frame_store k' _ 0)).mono fun x hx => ?_
        rw [pgrounddown_entry hal (by omega)] at hx
        rw [List.mem_append]
        rcases hx with ((hx | hx) | hx) | hx
        · exact .inl (.inl hx)
        · exact .inr hx
        · exact .inl (.inr hx)
        · exact .inr hx
      · have hne : t + 8 * i ≠ t + 8 * n := by omega
        rw [Kmem.store_m, if_neg hne,
          hfr' _ fun hx => hdisj _ hx (.inr (pgrounddown_entry hal (by omega))),
          hent i (by omega) hi']
    · -- an invalid entry: nothing to do
      rw [Bool.not_eq_true] at hv
      have hchild : child k.m t n = none := by
        simp only [child, hv, Bool.false_eq_true, if_false]
      have hstep : freewalkEntry (freewalk (d + 1)) t kₙ n = .ok kₙ := by
        simp only [freewalkEntry, hpte, hv, Bool.false_and, Bool.false_eq_true, if_false]
        rfl
      rw [subtreesBelow_succ, hchild]
      refine ⟨kₙ, hstep, by simpa using hf, he, by simpa using hfr,
        fun i hi hi' => hent i (by omega) hi'⟩

end Fold

/-- `freewalk (d + 1)` frees every subtree `d` levels above the last that is bare, has no page
twice and whose pages `kfree` accepts. -/
theorem freewalk_subtree : ∀ d, FreesSubtree (d + 1) d
  | 0 => by
    intro k t hbare _ hpg
    have ht : k.Page t := hpg t (List.mem_singleton_self t)
    refine ⟨{ k.memset t 1 with free := t :: k.free }, ?_, by simp [subtree], rfl,
      (frame_memset k ht.aligned 1).mono fun x hx => ?_⟩
    · rw [freewalk, foldlM_freewalkEntry_invalid 512 hbare]
      exact kfree_ok ht
    · rw [hx]; exact List.mem_singleton_self t
  | d + 1 => by
    intro k t hbare hnd hpg
    have ht : t ∈ subtree k.m (d + 1) t := by
      rw [subtree_succ]; exact List.mem_append_right _ (List.mem_singleton_self t)
    obtain ⟨k', hfold, hf, he, hfr, -⟩ := freewalk_fold (freewalk_subtree d) hbare hnd hpg 512 le_rfl
    have hpt : k'.Page t := (hpg t ht).congr he
    refine ⟨{ k'.memset t 1 with free := t :: k'.free }, ?_, ?_, by rw [← he]; rfl, ?_⟩
    · rw [freewalk, hfold]
      exact kfree_ok hpt
    · rw [subtree_succ, List.reverse_append, List.reverse_singleton, List.singleton_append, hf]
      rfl
    · refine (hfr.trans (frame_memset k' hpt.aligned 1)).mono fun x hx => ?_
      rw [subtree_succ, List.mem_append, List.mem_singleton]
      rcases hx with hx | rfl
      · exact hx
      · exact .inr rfl

/-! ### The whole tree -/

/-- A tree whose map is empty is bare three levels down: the interior entries point to tables,
and the last level has no valid entry. -/
theorem bare_of_tree (ht : Tree m root) (hnone : ∀ w < 2 ^ 27, lookup m root w = none) :
    Bare m 2 root := by
  intro i hi hv
  set c := pte2pa (entry m root i) with hc
  have hci : tableAt m root [i] = some c := by
    rw [tableAt_singleton]; simp only [child, hv, if_true, hc]
  refine ⟨ht.inner [] root i isPath_nil (by simp) hi rfl hv, fun j hj hv' => ?_⟩
  set g := pte2pa (entry m c j) with hg
  have hgj : tableAt m root [i, j] = some g := by
    rw [tableAt_pair, ← tableAt_singleton, hci, Option.bind_some]
    simp only [child, hv', if_true, hg]
  refine ⟨ht.inner [i] c j ⟨by simp, by simpa using hi⟩ (by simp) hj hci hv', fun l hl => ?_⟩
  -- the virtual page with indices `i`, `j`, `l` is unmapped
  have hw : i * 2 ^ 18 + j * 2 ^ 9 + l < 2 ^ 27 := by omega
  have hp : vpnPath (i * 2 ^ 18 + j * 2 ^ 9 + l) = [i, j] := by
    simp only [vpnPath, List.cons.injEq, and_true]
    omega
  have h0 := hnone _ hw
  rw [lookup_eq, hp, hgj, Option.bind_some,
    show (i * 2 ^ 18 + j * 2 ^ 9 + l) % 512 = l by omega] at h0
  split_ifs at h0 with hv''
  simpa using hv''

theorem subtree_two_nodup (ht : Tree m root) : (subtree m 2 root).Nodup :=
  subtree_nodup 2 root fun p q x hp hq hpi hqi hpx hqx =>
    ht.inj p q x ⟨hp, hpi⟩ ⟨hq, hqi⟩ hpx hqx

/-- `freewalk` frees the tables of a tree in order with an empty map. -/
theorem freewalk_tables (h : PtOk k root) (hnone : ∀ w < 2 ^ 27, lookup k.m root w = none) :
    ∃ k', freewalk 3 k root = .ok k' ∧ k'.free = (subtree k.m 2 root).reverse ++ k.free ∧
      k'.kend = k.kend ∧ k.Frame k' (IsTable k.m root) :=
  have hpg : ∀ x ∈ subtree k.m 2 root, k.Page x := fun x hx =>
    h.page x ((mem_subtree_two x).1 hx)
  let ⟨k', hrun, hf, he, hfr⟩ := freewalk_subtree 2 k root (bare_of_tree h.tree hnone)
    (subtree_two_nodup h.tree) hpg
  ⟨k', hrun, hf, he, hfr.mono fun x hx => (mem_subtree_two x).1 hx⟩

/-- `uvmfree(pagetable, sz)` on a tree in order whose map is exactly the pages below
`PGROUNDUP(sz) <= MAXVA`, mapped to distinct pages that can be freed, never panics: it puts
exactly those pages and the tables of the tree on the free list, each once, keeps the allocator
in order, and changes no other page. -/
theorem uvmfree_spec {sz : ℕ} (pas : ℕ → ℕ) (h : PtOk k root) (hsz : sz ≤ maxVa)
    (hmap : MappedRun k.m root pas 0 (pgroundup sz / pgSize))
    (hfree : Freeable k root pas (pgroundup sz / pgSize))
    (hnone : ∀ w, pgroundup sz / pgSize ≤ w → w < 2 ^ 27 → lookup k.m root w = none) :
    ∃ k' l, uvmfree k root sz = .ok k' ∧ k'.free = l ++ k.free ∧ l.Nodup ∧
      (∀ x, x ∈ l ↔ IsTable k.m root x ∨ ∃ j < pgroundup sz / pgSize, x = pas j) ∧ k'.Ok ∧
      k'.kend = k.kend ∧
      k.Frame k' (fun x => IsTable k.m root x ∨ ∃ j < pgroundup sz / pgSize, x = pas j) := by
  set N := pgroundup sz / pgSize with hN
  have hNp : 0 + N * pgSize = pgroundup sz := by
    rw [Nat.zero_add, hN, Nat.div_mul_cancel (Nat.dvd_of_mod_eq_zero (pgroundup_mod hsz))]
  have hbound : 0 + N * pgSize ≤ maxVa := by rw [hNp]; exact pgroundup_le hsz
  -- first the pages: `uvmunmap` of `[0, PGROUNDUP(sz))`, nothing when `sz` is 0
  obtain ⟨k₁, hun, hu⟩ : ∃ k₁, (if 0 < sz then uvmunmap k root 0 N true else pure k) = .ok k₁ ∧
      Unmapped root k k₁ true pas 0 N := by
    by_cases hs : 0 < sz
    · obtain ⟨k₁, hrun, hu⟩ := uvmunmapLoop_run N pas k 0 h (Nat.zero_mod _) hbound le_rfl
        (by simpa using hmap) fun _ => hfree
      refine ⟨k₁, ?_, by simpa using hu⟩
      rw [if_pos hs, uvmunmap_eq (Nat.zero_mod _) hbound, hrun,
        uvmunmapLoop_done _ (lt_irrefl _)]
    · have hN0 : N = 0 := by
        rw [hN, show sz = 0 by omega, pgroundup_of_mod (Nat.zero_le _) (Nat.zero_mod _),
          Nat.zero_div]
      rw [hN0]
      exact ⟨k, by rw [if_neg hs]; rfl, Unmapped.zero h true pas 0⟩
  -- then the tables, of a tree whose map is now empty
  have hnone₁ : ∀ w < 2 ^ 27, lookup k₁.m root w = none := by
    intro w hw
    rw [hu.map w hw]
    split_ifs with hin
    · rfl
    · exact hnone w (by omega) hw
  obtain ⟨k', hrun, hf, he, hfr⟩ := freewalk_tables hu.ok hnone₁
  have hdata : ∀ x, x ∈ ((List.range N).map pas).reverse ↔ ∃ j < N, x = pas j := fun x => by
    simp only [List.mem_reverse, List.mem_map, List.mem_range]
    exact ⟨fun ⟨j, hj, hx⟩ => ⟨j, hj, hx.symm⟩, fun ⟨j, hj, hx⟩ => ⟨j, hj, hx.symm⟩⟩
  have htab : ∀ x, x ∈ (subtree k₁.m 2 root).reverse ↔ IsTable k.m root x := fun x => by
    rw [List.mem_reverse, mem_subtree_two, hu.tables]
  have hl : ∀ x, x ∈ (subtree k₁.m 2 root).reverse ++ ((List.range N).map pas).reverse ↔
      IsTable k.m root x ∨ ∃ j < N, x = pas j := fun x => by
    rw [List.mem_append, htab, hdata]
  -- no table is a data page, and neither was free
  have hnd : ((subtree k₁.m 2 root).reverse ++ ((List.range N).map pas).reverse).Nodup := by
    refine List.nodup_append.2 ⟨List.nodup_reverse.2 (subtree_two_nodup hu.ok.tree),
      List.nodup_reverse.2 hfree.nodup, fun a ha b hb hab => ?_⟩
    obtain ⟨j, hj, rfl⟩ := (hdata b).1 hb
    exact hfree.not_table j hj (hab ▸ (htab a).1 ha)
  have hkf : k'.free = ((subtree k₁.m 2 root).reverse ++ ((List.range N).map pas).reverse) ++
      k.free := by
    rw [hf, hu.free, if_pos rfl, List.append_assoc]
  refine ⟨k', _, ?_, hkf, hnd, hl, h.ok.of_append hnd (fun x hx => ?_) (fun x hx => ?_) hkf
    (he.trans hu.kend), he.trans hu.kend, ?_⟩
  · unfold uvmfree
    rw [← hN]
    split_ifs with hs
    · rw [if_pos hs] at hun
      simp only [hun, bind, Except.bind]
      exact hrun
    · rw [if_neg hs] at hun
      simp only [hun, bind, Except.bind]
      exact hrun
  · rcases (hl x).1 hx with hx | ⟨j, hj, rfl⟩
    · exact h.page x hx
    · exact hfree.page j hj
  · rcases (hl x).1 hx with hx | ⟨j, hj, rfl⟩
    · exact h.not_free x hx
    · exact hfree.not_free j hj
  · refine (hu.frame.trans hfr).mono fun x hx => ?_
    rcases hx with (hx | ⟨-, hx⟩) | hx
    · exact .inl hx
    · exact .inr hx
    · exact .inl ((hu.tables x).1 hx)


/-- `uvmfree` of the empty tree of `bootKmem`, of size 0, puts its root on the free list. -/
example : ∃ k', uvmfree bootKmem kernbase 0 = .ok k' ∧ kernbase ∈ k'.free := by
  have h0 : pgroundup 0 / pgSize = 0 := by decide
  obtain ⟨k', l, hrun, hf, -, hl, -⟩ := uvmfree_spec (fun _ => 0) (bootKmem_ptOk (.inl rfl))
    (Nat.zero_le _) (by rw [h0]; exact fun j hj => absurd hj (Nat.not_lt_zero j))
    (by rw [h0]; exact ⟨fun j hj => absurd hj (Nat.not_lt_zero j),
      fun j hj => absurd hj (Nat.not_lt_zero j), fun j hj => absurd hj (Nat.not_lt_zero j),
      List.nodup_nil⟩)
    fun w _ _ => bootKmem_lookup kernbase w
  have hr : kernbase ∈ l := (hl _).2 (.inl ((isTable_empty (fun i _ => bootKmem_entry _ i) _).2 rfl))
  exact ⟨k', hrun, by rw [hf]; exact List.mem_append_left _ hr⟩
end Xv6.Vm
