import Mathlib

/-!
# A pool shared out among slots

A fixed pool of distinct resources (pages, blocks, descriptors) is at every moment partly free
and partly held by a finite set of slots.  `Shares pool free held` says that the free ones and
those each slot holds are together exactly the pool, each once: nothing is lost and nothing is
held twice.

* `Shares.update`: moving resources between the free ones and one slot keeps it, when the two
  sides change by the same amount;
* `Shares.not_mem_free`, `Shares.not_mem_held`: no resource is both free and held, or held by
  two slots.
-/

namespace Pool

open Finset

variable {ι α : Type*} [Fintype ι] [DecidableEq ι]

/-- The free resources and those the slots hold are together exactly `pool`, each once. -/
structure Shares (pool free : Multiset α) (held : ι → Multiset α) : Prop where
  sum : free + ∑ i, held i = pool
  nodup : pool.Nodup

variable {pool free free' : Multiset α} {held : ι → Multiset α}

theorem sum_eq_add_erase (held : ι → Multiset α) (i : ι) :
    ∑ j, held j = held i + ∑ j ∈ univ.erase i, held j :=
  (add_sum_erase _ _ (mem_univ i)).symm

/-- Moving resources between the free ones and slot `i`, the same on both sides. -/
theorem Shares.update (h : Shares pool free held) (i : ι) {b : Multiset α}
    (hb : free' + b = free + held i) : Shares pool free' (Function.update held i b) := by
  refine ⟨?_, h.nodup⟩
  have hrest : ∑ j ∈ univ.erase i, Function.update held i b j = ∑ j ∈ univ.erase i, held j :=
    sum_congr rfl fun j hj => Function.update_of_ne (ne_of_mem_erase hj) _ _
  rw [sum_eq_add_erase _ i, Function.update_self, hrest, ← add_assoc, hb, add_assoc,
    ← sum_eq_add_erase, h.sum]

theorem Shares.le (h : Shares pool free held) (i : ι) : free + held i ≤ pool := by
  rw [← h.sum, sum_eq_add_erase _ i, ← add_assoc]
  exact Multiset.le_add_right _ _

theorem Shares.held_le (h : Shares pool free held) {i j : ι} (hij : i ≠ j) :
    held i + held j ≤ pool := by
  have hj : held j ≤ ∑ k ∈ univ.erase i, held k :=
    single_le_sum (fun _ _ => Multiset.zero_le _) (mem_erase.2 ⟨hij.symm, mem_univ j⟩)
  calc held i + held j ≤ held i + ∑ k ∈ univ.erase i, held k := add_le_add_right hj _
    _ ≤ free + (held i + ∑ k ∈ univ.erase i, held k) := Multiset.le_add_left _ _
    _ = pool := by rw [← sum_eq_add_erase, h.sum]

/-- Two parts of a pool of distinct resources have none in common. -/
theorem not_mem_of_add_le {a b : Multiset α} (hle : a + b ≤ pool) (hnd : pool.Nodup) {x : α}
    (ha : x ∈ a) : x ∉ b :=
  Multiset.disjoint_left.1 (Multiset.nodup_add.1 (Multiset.nodup_of_le hle hnd)).2.2 ha

theorem Shares.not_mem_free (h : Shares pool free held) {i : ι} {x : α} (hx : x ∈ held i) :
    x ∉ free := fun hf => not_mem_of_add_le (h.le i) h.nodup hf hx

theorem Shares.not_mem_held (h : Shares pool free held) {i j : ι} (hij : i ≠ j) {x : α}
    (hx : x ∈ held i) : x ∉ held j :=
  not_mem_of_add_le (h.held_le hij) h.nodup hx

end Pool
