import Xv6.Vm.Kalloc

/-!
# Page tables as trees of pages (`walk` of `kernel/vm.c`)

A page table is a tree of page-table pages, 512 PTEs each, three levels deep.  `tableAt m root
path` is the page `walk` reaches from `root` along a path of indices: `[]` is the root, `[i]` the
level-1 table under the root's entry `i`, `[i, j]` the level-0 table under that table's entry `j`.
The abstract page table is `lookup`: for each virtual page number, the physical page and the
flags of its valid leaf PTE, read through `walk`.

`Tree m root` is what makes the tree a tree: no page is the table of two paths, and no interior
entry has `PTE_R`, `PTE_W` or `PTE_X` (`freewalk` takes those for leaves).

* `Tree.congr`, `lookup_congr`: memories that agree on the interior table pages have the same
  tables; agreeing on every table page, the same map;
* `tableAt_store_leaf`, `lookup_store_leaf`: a store into a leaf entry changes the map at that
  page only;
* `tableAt_store_table`, `lookup_store_table`: hanging a zeroed page under an invalid interior
  entry adds one table and leaves the map as it was.
-/

namespace Xv6.Vm

/-- Entry `i` of the page-table page at `t`, `((pagetable_t)t)[i]`. -/
def entry (m : PteMem) (t i : ℕ) : ℕ := m (t + 8 * i)

/-- The page a valid entry points to (`PTE2PA`); `none` for an invalid entry. -/
def child (m : PteMem) (t i : ℕ) : Option ℕ :=
  if pteValid (entry m t i) then some (pte2pa (entry m t i)) else none

/-- The page-table page reached from `root` along `path`. -/
def tableAt (m : PteMem) (root : ℕ) (path : List ℕ) : Option ℕ :=
  path.foldlM (child m) root

/-- A path to a table of the three-level tree: at most two indices, each below 512. -/
def IsPath (path : List ℕ) : Prop := path.length ≤ 2 ∧ ∀ i ∈ path, i < 512

/-- `(pte & (PTE_R|PTE_W|PTE_X)) != 0`: a leaf, in `freewalk`'s reading. -/
def pteRwx (pte : ℕ) : Bool := pte.testBit 1 || pte.testBit 2 || pte.testBit 3

/-- The level-2 and level-1 indices of virtual page `vpn`. -/
def vpnPath (vpn : ℕ) : List ℕ := [vpn / 2 ^ 18 % 512, vpn / 2 ^ 9 % 512]

/-- The abstract page table: the physical page and the flags (`PTE2PA`, `PTE_FLAGS`) of the
valid leaf PTE that `walk(pagetable, va, 0)` finds for each virtual page number. -/
def lookup (m : PteMem) (root vpn : ℕ) : Option (ℕ × ℕ) :=
  match walk m root (vpn * pgSize) with
  | none => none
  | some a => if pteValid (m a) then some (pte2pa (m a), m a % 2 ^ 10) else none

/-- `t` is a page of the tree at `root`. -/
def IsTable (m : PteMem) (root t : ℕ) : Prop := ∃ path, IsPath path ∧ tableAt m root path = some t

theorem isTable_root (m : PteMem) (root : ℕ) : IsTable m root root :=
  ⟨[], ⟨Nat.zero_le _, fun _ h => absurd h List.not_mem_nil⟩, rfl⟩

/-- The page table at `root` is a tree: the root is a page, no page is the table of two paths,
and the valid interior entries carry no `PTE_R`, `PTE_W` or `PTE_X`. -/
structure Tree (m : PteMem) (root : ℕ) : Prop where
  root_mod : root % pgSize = 0
  inj : ∀ p q t, IsPath p → IsPath q → tableAt m root p = some t → tableAt m root q = some t →
    p = q
  inner : ∀ p t i, IsPath p → p.length < 2 → i < 512 → tableAt m root p = some t →
    pteValid (entry m t i) = true → pteRwx (entry m t i) = false

variable {m m' : PteMem} {root : ℕ}

/-! ### Reading the tree -/

@[simp] theorem tableAt_nil : tableAt m root [] = some root := rfl

theorem tableAt_append (p : List ℕ) (i : ℕ) :
    tableAt m root (p ++ [i]) = (tableAt m root p).bind (child m · i) := by
  simp [tableAt, List.foldlM_append]

theorem tableAt_singleton (i : ℕ) : tableAt m root [i] = child m root i := by
  simp [tableAt]

theorem tableAt_pair (i j : ℕ) : tableAt m root [i, j] = (child m root i).bind (child m · j) := by
  simp [tableAt]

theorem isPath_nil : IsPath [] := ⟨Nat.zero_le _, fun _ h => absurd h List.not_mem_nil⟩

theorem isPath_append {p : List ℕ} {i : ℕ} (hp : IsPath p) (hl : p.length < 2) (hi : i < 512) :
    IsPath (p ++ [i]) := by
  refine ⟨by rw [List.length_append, List.length_singleton]; omega, fun j hj => ?_⟩
  rcases List.mem_append.1 hj with hj | hj
  · exact hp.2 j hj
  · rw [List.mem_singleton.1 hj]; exact hi

theorem isPath_vpnPath (vpn : ℕ) : IsPath (vpnPath vpn) := by
  refine ⟨le_rfl, fun i hi => ?_⟩
  simp only [vpnPath, List.mem_cons, List.not_mem_nil, or_false] at hi
  rcases hi with rfl | rfl <;> exact Nat.mod_lt _ (by decide)

theorem walk_eq (m : PteMem) (root va : ℕ) :
    walk m root va = (tableAt m root [px 2 va, px 1 va]).map (· + 8 * px 0 va) := by
  rw [tableAt_pair]
  simp only [walk, walkFrom, Nat.reduceAdd, child, entry]
  split_ifs <;> simp [*]

theorem px_vpn (level vpn : ℕ) : px level (vpn * pgSize) = vpn / 2 ^ (9 * level) % 512 := by
  unfold px pgSize
  rw [pow_add, show (4096 : ℕ) = 2 ^ 12 from rfl, Nat.mul_comm vpn,
    Nat.mul_div_mul_left _ _ (by positivity)]

theorem walk_vpn (m : PteMem) (root vpn : ℕ) :
    walk m root (vpn * pgSize) = (tableAt m root (vpnPath vpn)).map (· + 8 * (vpn % 512)) := by
  rw [walk_eq, px_vpn, px_vpn, px_vpn]
  norm_num [vpnPath]

/-- The leaf entry of a virtual page, read from the level-0 table of its path. -/
theorem lookup_eq (m : PteMem) (root vpn : ℕ) :
    lookup m root vpn = (tableAt m root (vpnPath vpn)).bind fun t =>
      if pteValid (entry m t (vpn % 512)) then
        some (pte2pa (entry m t (vpn % 512)), entry m t (vpn % 512) % 2 ^ 10)
      else none := by
  unfold lookup
  rw [walk_vpn]
  cases tableAt m root (vpnPath vpn) <;> rfl

/-- A virtual page below `2^27` is determined by its three indices. -/
theorem vpn_eq_of_path {v w : ℕ} (hv : v < 2 ^ 27) (hw : w < 2 ^ 27)
    (hp : vpnPath v = vpnPath w) (h0 : v % 512 = w % 512) : v = w := by
  simp only [vpnPath, List.cons.injEq, and_true] at hp
  omega

/-! ### Tables are pages -/

theorem child_mod {t i c : ℕ} (h : child m t i = some c) : c % pgSize = 0 := by
  unfold child at h
  split_ifs at h
  rw [← Option.some.inj h]
  exact pte2pa_mod_pgSize _

theorem child_lt {t i c : ℕ} (h : child m t i = some c) : c < 2 ^ 64 := by
  unfold child at h
  split_ifs at h
  rw [← Option.some.inj h, pte2pa]
  exact Nat.mod_lt _ (by positivity)

theorem Tree.table_mod (ht : Tree m root) {p : List ℕ} {t : ℕ} (h : tableAt m root p = some t) :
    t % pgSize = 0 := by
  induction p using List.reverseRecOn with
  | nil =>
    rw [tableAt_nil, Option.some.injEq] at h
    rw [← h]
    exact ht.root_mod
  | append_singleton p i _ =>
    rw [tableAt_append, Option.bind_eq_some_iff] at h
    obtain ⟨_, -, hc⟩ := h
    exact child_mod hc

theorem pgrounddown_entry {t i : ℕ} (ht : t % pgSize = 0) (hi : i < 512) :
    pgrounddown (t + 8 * i) = t :=
  pgrounddown_of_lt ht (Nat.le_add_right _ _) (by unfold pgSize; omega)

/-- Entries of aligned pages sit at different addresses unless they are the same entry. -/
theorem entry_addr_inj {t t' i i' : ℕ} (ht : t % pgSize = 0) (ht' : t' % pgSize = 0)
    (hi : i < 512) (hi' : i' < 512) (h : t + 8 * i = t' + 8 * i') : t = t' ∧ i = i' := by
  have hp : t = t' := by
    rw [← pgrounddown_entry ht hi, ← pgrounddown_entry ht' hi', h]
  subst hp
  exact ⟨rfl, by omega⟩

theorem isPath_cases {p : List ℕ} (hp : IsPath p) :
    p = [] ∨ (∃ i, i < 512 ∧ p = [i]) ∨ ∃ i j, i < 512 ∧ j < 512 ∧ p = [i, j] := by
  obtain ⟨hl, hlt⟩ := hp
  match p, hl with
  | [], _ => exact .inl rfl
  | [i], _ => exact .inr (.inl ⟨i, hlt i (by simp), rfl⟩)
  | [i, j], _ => exact .inr (.inr ⟨i, j, hlt i (by simp), hlt j (by simp), rfl⟩)

/-! ### Memories that agree on the tree -/

/-- `m'` agrees with `m` on the pages of the tables at paths shorter than two: the pages whose
entries `walk` follows. -/
def AgreeInner (m m' : PteMem) (root : ℕ) : Prop :=
  ∀ q t a, IsPath q → q.length < 2 → tableAt m root q = some t → pgrounddown a = t → m' a = m a

theorem child_congr {t i : ℕ} (ht : t % pgSize = 0) (hi : i < 512)
    (hm : ∀ a, pgrounddown a = t → m' a = m a) : child m' t i = child m t i := by
  unfold child entry
  rw [hm _ (pgrounddown_entry ht hi)]

theorem entry_congr {t i : ℕ} (ht : t % pgSize = 0) (hi : i < 512)
    (hm : ∀ a, pgrounddown a = t → m' a = m a) : entry m' t i = entry m t i :=
  hm _ (pgrounddown_entry ht hi)

theorem tableAt_congr (ht : Tree m root) (hm : AgreeInner m m' root) {p : List ℕ}
    (hp : IsPath p) : tableAt m' root p = tableAt m root p := by
  rcases isPath_cases hp with rfl | ⟨i, hi, rfl⟩ | ⟨i, j, hi, hj, rfl⟩
  · rfl
  · rw [tableAt_singleton, tableAt_singleton]
    exact child_congr ht.root_mod hi fun a ha => hm [] root a isPath_nil (by simp) rfl ha
  · have hroot : child m' root i = child m root i :=
      child_congr ht.root_mod hi fun a ha => hm [] root a isPath_nil (by simp) rfl ha
    rw [tableAt_pair, tableAt_pair, hroot]
    cases hc : child m root i with
    | none => rfl
    | some c =>
      have hci : tableAt m root [i] = some c := by rw [tableAt_singleton, hc]
      exact child_congr (child_mod hc) hj fun a ha =>
        hm [i] c a ⟨by simp, by simp [hi]⟩ (by simp) hci ha

theorem px_lt (level va : ℕ) : px level va < 512 := Nat.mod_lt _ (by decide)

theorem isPath_px (va : ℕ) : IsPath [px 2 va, px 1 va] := by
  refine ⟨le_rfl, fun i hi => ?_⟩
  simp only [List.mem_cons, List.not_mem_nil, or_false] at hi
  rcases hi with rfl | rfl <;> exact px_lt _ _

theorem walk_congr (ht : Tree m root) (hm : AgreeInner m m' root) (va : ℕ) :
    walk m' root va = walk m root va := by
  have hp := isPath_px va
  rw [walk_eq, walk_eq, tableAt_congr ht hm hp]

/-- What `lookup` finds is the leaf PTE `walk` reaches. -/
theorem lookup_eq_some {vpn pa fl : ℕ} (h : lookup m root vpn = some (pa, fl)) :
    ∃ pte, walk m root (vpn * pgSize) = some pte ∧ pteValid (m pte) = true ∧
      pte2pa (m pte) = pa ∧ m pte % 2 ^ 10 = fl := by
  unfold lookup at h
  split at h
  · cases h
  · rename_i pte hw
    split_ifs at h with hv
    obtain ⟨rfl, rfl⟩ := Prod.mk.inj (Option.some.inj h)
    exact ⟨pte, hw, hv, rfl, rfl⟩

theorem isTable_congr (ht : Tree m root) (hm : AgreeInner m m' root) (t : ℕ) :
    IsTable m' root t ↔ IsTable m root t := by
  constructor
  · rintro ⟨p, hp, h⟩
    exact ⟨p, hp, (tableAt_congr ht hm hp) ▸ h⟩
  · rintro ⟨p, hp, h⟩
    exact ⟨p, hp, (tableAt_congr ht hm hp).symm ▸ h⟩

theorem Tree.congr (ht : Tree m root) (hm : AgreeInner m m' root) : Tree m' root := by
  refine ⟨ht.root_mod, fun p q t hp hq h h' => ?_, fun p t i hp hl hi h hv => ?_⟩
  · rw [tableAt_congr ht hm hp] at h
    rw [tableAt_congr ht hm hq] at h'
    exact ht.inj p q t hp hq h h'
  · rw [tableAt_congr ht hm hp] at h
    have he := entry_congr (ht.table_mod h) hi fun a ha => hm p t a hp hl h ha
    rw [he] at hv ⊢
    exact ht.inner p t i hp hl hi h hv

/-- Memories that agree on every table page have the same map. -/
theorem lookup_congr (ht : Tree m root) (hm : ∀ a, IsTable m root (pgrounddown a) → m' a = m a) :
    lookup m' root = lookup m root := by
  have hin : AgreeInner m m' root := fun q t a hq _ h ha => hm a ⟨q, hq, ha ▸ h⟩
  funext vpn
  rw [lookup_eq, lookup_eq, tableAt_congr ht hin (isPath_vpnPath vpn)]
  cases h : tableAt m root (vpnPath vpn) with
  | none => rfl
  | some t =>
    have he := entry_congr (ht.table_mod h) (Nat.mod_lt vpn (by decide)) fun a ha =>
      hm a ⟨vpnPath vpn, isPath_vpnPath vpn, ha ▸ h⟩
    simp only [Option.bind_some, he]

theorem agreeInner_of_frame {k k' : Kmem} {S : ℕ → Prop} (hf : k.Frame k' S)
    (hS : ∀ t, IsTable k.m root t → ¬ S t) : AgreeInner k.m k'.m root :=
  fun q _ a hq _ h ha => hf a (hS _ ⟨q, hq, ha ▸ h⟩)

theorem lookup_frame {k k' : Kmem} {S : ℕ → Prop} (ht : Tree k.m root) (hf : k.Frame k' S)
    (hS : ∀ t, IsTable k.m root t → ¬ S t) : lookup k'.m root = lookup k.m root :=
  lookup_congr ht fun a ha => hf a (hS _ ha)

/-! ### Storing a leaf entry -/

theorem exists_leaf_table {vpn a : ℕ} (hw : walk m root (vpn * pgSize) = some a) :
    ∃ t, tableAt m root (vpnPath vpn) = some t ∧ a = t + 8 * (vpn % 512) := by
  rw [walk_vpn, Option.map_eq_some_iff] at hw
  obtain ⟨t, ht, rfl⟩ := hw
  exact ⟨t, ht, rfl⟩

section StoreLeaf

variable {vpn a v : ℕ} (ht : Tree m root) (hw : walk m root (vpn * pgSize) = some a)
include ht hw

theorem agreeInner_store_leaf : AgreeInner m (Function.update m a v) root := by
  intro q t b hq hl h hb
  obtain ⟨t₀, h₀, rfl⟩ := exists_leaf_table hw
  rw [Function.update_apply, if_neg]
  intro hba
  -- the stored entry lies in the level-0 table `t₀`, which no shorter path reaches
  have hpg : t = t₀ := by
    rw [← hb, hba, pgrounddown_entry (ht.table_mod h₀) (Nat.mod_lt _ (by decide))]
  subst hpg
  have := ht.inj q (vpnPath vpn) t hq (isPath_vpnPath vpn) h h₀
  rw [this] at hl
  exact absurd hl (by simp [vpnPath])

theorem tableAt_store_leaf {p : List ℕ} (hp : IsPath p) :
    tableAt (Function.update m a v) root p = tableAt m root p :=
  tableAt_congr ht (agreeInner_store_leaf ht hw) hp

theorem Tree.store_leaf : Tree (Function.update m a v) root :=
  ht.congr (agreeInner_store_leaf ht hw)

/-- A store into the leaf entry of `vpn` changes the map at `vpn` only. -/
theorem lookup_store_leaf {w : ℕ} (hvpn : vpn < 2 ^ 27) (hw' : w < 2 ^ 27) :
    lookup (Function.update m a v) root w =
      if w = vpn then (if pteValid v then some (pte2pa v, v % 2 ^ 10) else none)
      else lookup m root w := by
  obtain ⟨t₀, h₀, rfl⟩ := exists_leaf_table hw
  rw [lookup_eq, lookup_eq, tableAt_store_leaf ht hw (isPath_vpnPath w)]
  by_cases hwv : w = vpn
  · subst hwv
    rw [if_pos rfl]
    simp [h₀, entry]
  · rw [if_neg hwv]
    cases h : tableAt m root (vpnPath w) with
    | none => rfl
    | some t =>
      -- a different page has a different leaf entry
      have hne : t + 8 * (w % 512) ≠ t₀ + 8 * (vpn % 512) := by
        intro he
        obtain ⟨rfl, hi⟩ := entry_addr_inj (ht.table_mod h) (ht.table_mod h₀)
          (Nat.mod_lt _ (by decide)) (Nat.mod_lt _ (by decide)) he
        exact hwv (vpn_eq_of_path hw' hvpn
          (ht.inj _ _ t (isPath_vpnPath w) (isPath_vpnPath vpn) h h₀) hi)
      simp only [Option.bind_some, entry, Function.update_apply, if_neg hne]
      rfl

end StoreLeaf

/-! ### Hanging a new table under an interior entry -/

theorem pteValid_mkPte_pteV (p : ℕ) : pteValid (mkPte p pteV) = true := by
  rw [pteValid, testBit_mkPte _ (by decide) (by decide)]
  decide

theorem pteRwx_mkPte_pteV (p : ℕ) : pteRwx (mkPte p pteV) = false := by
  simp only [pteRwx, testBit_mkPte p (show pteV < 2 ^ 10 by decide) (show 1 < 10 by decide),
    testBit_mkPte p (show pteV < 2 ^ 10 by decide) (show 2 < 10 by decide),
    testBit_mkPte p (show pteV < 2 ^ 10 by decide) (show 3 < 10 by decide)]
  decide

/-- `PTE2PA(PA2PTE(pa) | flags) = pa` for a page below `2^64`. -/
theorem pte2pa_mkPte {p f : ℕ} (hp : p % pgSize = 0) (hlt : p < 2 ^ 64) (hf : f < 2 ^ 10) :
    pte2pa (mkPte p f) = p := by
  unfold pte2pa mkPte
  unfold pgSize at hp
  have h1 : (p / 2 ^ 12 * 2 ^ 10 + f) / 2 ^ 10 = p / 2 ^ 12 := by omega
  rw [h1, Nat.div_mul_cancel (Nat.dvd_of_mod_eq_zero (show p % 2 ^ 12 = 0 from hp)),
    Nat.mod_eq_of_lt hlt]

theorem entry_update (m : PteMem) (a v t j : ℕ) :
    entry (Function.update m a v) t j = if t + 8 * j = a then v else entry m t j :=
  Function.update_apply _ _ _ _

section StoreTable

variable {q : List ℕ} {t i p : ℕ} (ht : Tree m root) (hq : IsPath q) (hl : q.length < 2)
  (hi : i < 512) (htq : tableAt m root q = some t) (hc : child m t i = none)
  (hp : p % pgSize = 0) (hp64 : p < 2 ^ 64) (hnt : ¬ IsTable m root p)
  (hz : ∀ j < 512, entry m p j = 0)

include ht hq hi htq hp hp64 in
/-- Entries of the old tables change only at entry `i` of `t`. -/
theorem child_store_table {s : List ℕ} {u j : ℕ} (hs : IsPath s) (hsu : tableAt m root s = some u)
    (hj : j < 512) :
    child (Function.update m (t + 8 * i) (mkPte p pteV)) u j =
      if s = q ∧ j = i then some p else child m u j := by
  have hsame : u + 8 * j = t + 8 * i ↔ s = q ∧ j = i := by
    constructor
    · intro he
      obtain ⟨rfl, rfl⟩ := entry_addr_inj (ht.table_mod hsu) (ht.table_mod htq) hj hi he
      exact ⟨ht.inj s q u hs hq hsu htq, rfl⟩
    · rintro ⟨rfl, rfl⟩
      rw [Option.some.inj (hsu.symm.trans htq)]
  unfold child
  rw [entry_update]
  by_cases hsq : s = q ∧ j = i
  · rw [if_pos (hsame.2 hsq), if_pos hsq, if_pos (pteValid_mkPte_pteV p), pte2pa_mkPte hp hp64
      (by decide)]
  · rw [if_neg (mt hsame.1 hsq), if_neg hsq]

include ht hq hi htq hp hnt hz in
/-- The new table's entries are all invalid. -/
theorem child_store_new {j : ℕ} (hj : j < 512) :
    child (Function.update m (t + 8 * i) (mkPte p pteV)) p j = none := by
  have hne : p + 8 * j ≠ t + 8 * i := by
    intro he
    have := congrArg pgrounddown he
    rw [pgrounddown_entry hp hj, pgrounddown_entry (ht.table_mod htq) hi] at this
    exact hnt ⟨q, hq, this ▸ htq⟩
  unfold child
  rw [entry_update, if_neg hne, hz j hj]
  rfl

include ht hq hl hi htq hc hp hp64 hnt hz in
/-- After the store, the table at `q ++ [i]` is `p`, and every other table is as it was. -/
theorem tableAt_store_table {r : List ℕ} (hr : IsPath r) :
    tableAt (Function.update m (t + 8 * i) (mkPte p pteV)) root r =
      if r = q ++ [i] then some p else tableAt m root r := by
  have hroot := fun a (ha : a < 512) =>
    child_store_table (s := []) ht hq hi htq hp hp64 isPath_nil rfl ha
  have hlen : ∀ r : List ℕ, r = q ++ [i] → r.length = q.length + 1 := by
    rintro r rfl; simp
  rcases isPath_cases hr with rfl | ⟨a, ha, rfl⟩ | ⟨a, b, ha, hb, rfl⟩
  · rw [if_neg fun h => by simpa using hlen _ h]; rfl
  · rw [tableAt_singleton, tableAt_singleton, hroot a ha]
    have : ([a] = q ++ [i]) ↔ ([] = q ∧ a = i) := by
      constructor
      · intro h
        have hq0 : q = [] := List.eq_nil_of_length_eq_zero (by simpa using hlen _ h)
        subst hq0
        exact ⟨rfl, by simpa using h⟩
      · rintro ⟨rfl, rfl⟩; rfl
    simp only [this]
  · have hne : [a, b] ≠ q ++ [i] ∨ q = [a] ∧ b = i := by
      by_cases h : [a, b] = q ++ [i]
      · have hq1 : q.length = 1 := by simpa using (hlen _ h).symm
        obtain ⟨c, rfl⟩ := List.length_eq_one_iff.1 hq1
        simp only [List.cons_append, List.nil_append, List.cons.injEq, and_true] at h
        exact .inr ⟨by rw [h.1], h.2⟩
      · exact .inl h
    rw [tableAt_pair, tableAt_pair, hroot a ha]
    by_cases hqa : [] = q ∧ a = i
    · obtain ⟨rfl, rfl⟩ := hqa
      have hrt : t = root := (Option.some.inj htq).symm
      subst hrt
      rw [if_pos ⟨rfl, rfl⟩, Option.bind_some, hc,
        child_store_new ht hq hi htq hp hnt hz hb, if_neg (by simp)]
      rfl
    · rw [if_neg hqa]
      cases hca : child m root a with
      | none =>
        rw [Option.bind_none, if_neg]
        · rfl
        rintro he
        rcases hne with hne | ⟨rfl, -⟩
        · exact hne he
        · rw [tableAt_singleton, hca] at htq
          exact absurd htq (by simp)
      | some c =>
        have hct : tableAt m root [a] = some c := by rw [tableAt_singleton, hca]
        rw [Option.bind_some, Option.bind_some,
          child_store_table ht hq hi htq hp hp64 ⟨by simp, by simp [ha]⟩ hct hb]
        have : ([a, b] = q ++ [i]) ↔ ([a] = q ∧ b = i) := by
          constructor
          · intro h
            rcases hne with hne | ⟨rfl, rfl⟩
            · exact absurd h hne
            · exact ⟨rfl, rfl⟩
          · rintro ⟨rfl, rfl⟩; rfl
        simp only [this]

include ht hq hl hi htq hc hp hp64 hnt hz in
theorem isTable_store_table (x : ℕ) :
    IsTable (Function.update m (t + 8 * i) (mkPte p pteV)) root x ↔ IsTable m root x ∨ x = p := by
  have hnew : tableAt m root (q ++ [i]) = none := by rw [tableAt_append, htq, Option.bind_some, hc]
  have hnp := isPath_append hq hl hi
  constructor
  · rintro ⟨r, hr, h⟩
    rw [tableAt_store_table ht hq hl hi htq hc hp hp64 hnt hz hr] at h
    split_ifs at h
    · exact .inr (Option.some.inj h).symm
    · exact .inl ⟨r, hr, h⟩
  · rintro (⟨r, hr, h⟩ | rfl)
    · refine ⟨r, hr, ?_⟩
      rw [tableAt_store_table ht hq hl hi htq hc hp hp64 hnt hz hr, if_neg]
      · exact h
      · rintro rfl
        rw [hnew] at h
        exact absurd h (by simp)
    · exact ⟨q ++ [i], hnp, by rw [tableAt_store_table ht hq hl hi htq hc hp hp64 hnt hz hnp,
        if_pos rfl]⟩

include ht hq hi htq hp hnt hz in
theorem pteValid_store_new {j : ℕ} (hj : j < 512) :
    pteValid (entry (Function.update m (t + 8 * i) (mkPte p pteV)) p j) = false := by
  have h := child_store_new ht hq hi htq hp hnt hz hj
  unfold child at h
  split_ifs at h with hv
  simpa using hv

include ht hq hl hi htq hc hp hp64 hnt hz in
theorem Tree.store_table : Tree (Function.update m (t + 8 * i) (mkPte p pteV)) root := by
  have hclosed := fun r (hr : IsPath r) => tableAt_store_table ht hq hl hi htq hc hp hp64 hnt hz hr
  refine ⟨ht.root_mod, fun p₁ p₂ x h₁ h₂ e₁ e₂ => ?_, fun s u j hs hsl hj h hv => ?_⟩
  · rw [hclosed p₁ h₁] at e₁
    rw [hclosed p₂ h₂] at e₂
    split_ifs at e₁ e₂ with hp₁ hp₂ hp₂
    · rw [hp₁, hp₂]
    · rw [← Option.some.inj e₁] at e₂
      exact absurd ⟨p₂, h₂, e₂⟩ hnt
    · rw [← Option.some.inj e₂] at e₁
      exact absurd ⟨p₁, h₁, e₁⟩ hnt
    · exact ht.inj p₁ p₂ x h₁ h₂ e₁ e₂
  · rw [hclosed s hs] at h
    split_ifs at h with hsq
    · rw [← Option.some.inj h, pteValid_store_new ht hq hi htq hp hnt hz hj] at hv
      exact absurd hv (by simp)
    · rw [entry_update] at hv ⊢
      split_ifs at hv ⊢
      · exact pteRwx_mkPte_pteV p
      · exact ht.inner s u j hs hsl hj h hv

include ht hq hl hi htq hc hp hp64 hnt hz in
/-- A new table leaves the map as it was: its entries are all invalid. -/
theorem lookup_store_table :
    lookup (Function.update m (t + 8 * i) (mkPte p pteV)) root = lookup m root := by
  funext w
  rw [lookup_eq, lookup_eq, tableAt_store_table ht hq hl hi htq hc hp hp64 hnt hz (isPath_vpnPath w)]
  split_ifs with hw
  · rw [hw, tableAt_append, htq, Option.bind_some, Option.bind_some, hc, Option.bind_none,
      pteValid_store_new ht hq hi htq hp hnt hz (Nat.mod_lt w (by decide))]
    rfl
  · cases h : tableAt m root (vpnPath w) with
    | none => rfl
    | some u =>
      have hne : u + 8 * (w % 512) ≠ t + 8 * i := by
        intro he
        obtain ⟨rfl, -⟩ := entry_addr_inj (ht.table_mod h) (ht.table_mod htq)
          (Nat.mod_lt _ (by decide)) hi he
        have := ht.inj _ _ _ (isPath_vpnPath w) hq h htq
        rw [← this] at hl
        exact absurd hl (by simp [vpnPath])
      simp only [Option.bind_some, entry_update, if_neg hne]

end StoreTable

/-! ### The empty tree -/

section Empty

/- A root page with no valid entry, what `uvmcreate` makes of a zeroed page. -/
variable (hz : ∀ i < 512, pteValid (entry m root i) = false)
include hz

theorem tableAt_empty {p : List ℕ} (hp : IsPath p) :
    tableAt m root p = if p = [] then some root else none := by
  have hc : ∀ i < 512, child m root i = none := fun i hi => by simp [child, hz i hi]
  rcases isPath_cases hp with rfl | ⟨i, hi, rfl⟩ | ⟨i, j, hi, -, rfl⟩
  · rfl
  · rw [tableAt_singleton, hc i hi, if_neg (List.cons_ne_nil _ _)]
  · rw [tableAt_pair, hc i hi, if_neg (List.cons_ne_nil _ _), Option.bind_none]

theorem Tree.empty (hr : root % pgSize = 0) : Tree m root := by
  refine ⟨hr, fun p q t hp hq h h' => ?_, fun p t i hp _ hi h hv => ?_⟩
  · rw [tableAt_empty hz hp] at h
    rw [tableAt_empty hz hq] at h'
    split_ifs at h h' with hp0 hq0
    rw [hp0, hq0]
  · rw [tableAt_empty hz hp] at h
    split_ifs at h
    cases h
    rw [hz i hi] at hv
    cases hv

theorem isTable_empty (t : ℕ) : IsTable m root t ↔ t = root := by
  constructor
  · rintro ⟨p, hp, h⟩
    rw [tableAt_empty hz hp] at h
    split_ifs at h
    exact (Option.some.inj h).symm
  · rintro rfl
    exact ⟨[], isPath_nil, rfl⟩

theorem lookup_empty (vpn : ℕ) : lookup m root vpn = none := by
  rw [lookup_eq, tableAt_empty hz (isPath_vpnPath vpn), vpnPath, if_neg (List.cons_ne_nil _ _),
    Option.bind_none]

end Empty

end Xv6.Vm
