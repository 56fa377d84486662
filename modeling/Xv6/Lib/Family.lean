import Mathlib.Algebra.BigOperators.Ring.Finset
import Mathlib.Algebra.Order.BigOperators.Group.Finset
import Mathlib.Tactic.Abel

/-!
# Families of per-process states

A system of processes keeps one state per process, `f : ι → α`, and a step changes one entry,
`Function.update f p a`.  The counters code keeps beside such a family (how many processes are
in a phase, how much they have reserved, how many hold a buffer) are sums `∑ q, g (f q)`.

* `sum_add_of_ne`, `sum_update_add`: how a change of one term, or one update of the family,
  moves such a sum (stated without subtraction, so that they serve `ℕ` counters as well);
* `sum_le_mul_sum`: a sum of terms each at most `c` times another is at most `c` times that
  other sum (a reservation per process bounds the total by the count);
* `eq_zero_of_sum_eq_zero`: a zero count has no process in the phase.
-/

namespace Family

variable {ι α : Type*} [Fintype ι]

section Sum

variable [DecidableEq ι] {M : Type*} [AddCommMonoid M]

/-- A sum whose terms change at `p` alone moves by the difference of the two terms there. -/
theorem sum_add_of_ne (g g' : ι → M) (p : ι) (h : ∀ q, q ≠ p → g' q = g q) :
    ∑ q, g' q + g p = ∑ q, g q + g' p := by
  have hrest : ∑ q ∈ Finset.univ.erase p, g' q = ∑ q ∈ Finset.univ.erase p, g q :=
    Finset.sum_congr rfl fun q hq => h q (Finset.ne_of_mem_erase hq)
  rw [← Finset.add_sum_erase _ _ (Finset.mem_univ p), ← Finset.add_sum_erase _ _ (Finset.mem_univ p),
    hrest]
  abel

/-- Updating the state of process `p` from `f p` to `a` moves every sum over the family by the
difference of the two terms. -/
theorem sum_update_add (g : α → M) (f : ι → α) (p : ι) (a : α) :
    ∑ q, g (Function.update f p a q) + g (f p) = ∑ q, g (f q) + g a := by
  have h := sum_add_of_ne (fun q => g (f q)) (fun q => g (Function.update f p a q)) p
    fun q hq => by rw [Function.update_of_ne hq]
  simpa only [Function.update_self] using h

end Sum

theorem sum_le_mul_sum {g h : α → ℕ} {c : ℕ} (hgh : ∀ a, g a ≤ c * h a) (f : ι → α) :
    ∑ q, g (f q) ≤ c * ∑ q, h (f q) := by
  rw [Finset.mul_sum]
  exact Finset.sum_le_sum fun q _ => hgh (f q)

theorem eq_zero_of_sum_eq_zero {g : α → ℕ} {f : ι → α} (h : ∑ q, g (f q) = 0) (q : ι) :
    g (f q) = 0 :=
  (Finset.sum_eq_zero_iff.1 h) q (Finset.mem_univ q)

end Family
