import Mathlib.Data.Nat.ModEq
import Mathlib.Data.List.Range

/-!
# Ring buffers over free-running counters

A ring buffer of capacity `cap` stores element number `m` of its stream at `data (m % cap)`.
With a read counter `r` and `k` elements in the buffer, its contents are the `window`: elements
`r, r + 1, …, r + k - 1`, read at `(r + j) % cap`.

* `window_push`: writing at `(r + k) % cap` appends, when the buffer is not full;
* `window_drop`: advancing the read counter by `m` drops the first `m` elements;
* `window_congr`: only the read counter modulo `cap` matters, so counters kept modulo a multiple
  of `cap` (machine integers that wrap) index the same elements;
* `window_add`, `window_update_of_le`: a window splits at any point, and a write to a slot past
  its end, within the capacity, leaves it alone.
-/

namespace Ring

variable {α : Type*}

/-- The `k` elements from read counter `r` of a buffer of capacity `cap`. -/
def window (data : ℕ → α) (cap r k : ℕ) : List α :=
  (List.range k).map fun j => data ((r + j) % cap)

@[simp] theorem length_window (data : ℕ → α) (cap r k : ℕ) : (window data cap r k).length = k := by
  simp [window]

theorem window_zero (data : ℕ → α) (cap r : ℕ) : window data cap r 0 = [] := rfl

/-- Slots `j < k < cap` past the same counter are distinct. -/
theorem add_mod_ne {cap r j k : ℕ} (hj : j < k) (hk : k < cap) : (r + j) % cap ≠ (r + k) % cap := by
  intro h
  have hmod : j % cap = k % cap := Nat.ModEq.add_left_cancel' r h
  rw [Nat.mod_eq_of_lt (by omega), Nat.mod_eq_of_lt hk] at hmod
  omega

/-- Writing the next slot of a buffer that is not full appends to its contents. -/
theorem window_push [DecidableEq α] (data : ℕ → α) {cap r k : ℕ} (hk : k < cap) (x : α) :
    window (Function.update data ((r + k) % cap) x) cap r (k + 1) = window data cap r k ++ [x] := by
  unfold window
  rw [List.range_succ, List.map_append, List.map_singleton, Function.update_self]
  congr 1
  refine List.map_congr_left fun j hj => ?_
  exact Function.update_of_ne (add_mod_ne (List.mem_range.1 hj) hk) _ _

/-- A write to slot `(r + k') % cap` with `k ≤ k' < cap` lies outside the first `k` elements. -/
theorem window_update_of_le [DecidableEq α] (data : ℕ → α) {cap r k k' : ℕ} (hk : k ≤ k')
    (hk' : k' < cap) (x : α) :
    window (Function.update data ((r + k') % cap) x) cap r k = window data cap r k := by
  unfold window
  refine List.map_congr_left fun j hj => ?_
  exact Function.update_of_ne (add_mod_ne (by simp at hj; omega) hk') _ _

/-- A window is its first `k` elements followed by the `m` after them. -/
theorem window_add (data : ℕ → α) (cap r k m : ℕ) :
    window data cap r (k + m) = window data cap r k ++ window data cap (r + k) m := by
  unfold window
  rw [List.range_add, List.map_append, List.map_map]
  congr 1
  refine List.map_congr_left fun j _ => ?_
  simp only [Function.comp_apply, Nat.add_assoc]

/-- Only the read counter modulo `cap` matters. -/
theorem window_congr (data : ℕ → α) {cap r r' : ℕ} (h : r % cap = r' % cap) (k : ℕ) :
    window data cap r k = window data cap r' k := by
  unfold window
  refine List.map_congr_left fun j _ => ?_
  rw [Nat.add_mod, h, ← Nat.add_mod]

/-- Reading the first element advances the read counter by one. -/
theorem window_succ (data : ℕ → α) (cap r k : ℕ) :
    window data cap r (k + 1) = data (r % cap) :: window data cap (r + 1) k := by
  unfold window
  rw [List.range_succ_eq_map, List.map_cons, List.map_map, Nat.add_zero]
  congr 1
  refine List.map_congr_left fun j _ => ?_
  simp only [Function.comp_apply]
  rw [Nat.add_assoc, Nat.add_comm 1 j]

/-- Advancing the read counter by `m` drops the first `m` elements. -/
theorem window_drop (data : ℕ → α) (cap : ℕ) :
    ∀ (r k m : ℕ), (window data cap r k).drop m = window data cap (r + m) (k - m)
  | r, k, 0 => rfl
  | r, 0, m + 1 => by simp [window]
  | r, k + 1, m + 1 => by
    rw [window_succ, List.drop_succ_cons, window_drop data cap (r + 1) k m,
      Nat.add_right_comm, Nat.add_assoc, Nat.add_sub_add_right]

end Ring
