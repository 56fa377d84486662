import Mathlib.Data.Int.Notation
import Mathlib.Data.Nat.Notation
import Mathlib.Logic.Function.Basic
import Mathlib.Tactic.SplitIfs

/-!
# `memmove` (`kernel/string.c`, `user/ulib.c`)

Memory is a function from addresses to bytes, and a pointer is an address.  Both `memmove`s
copy with one of two loops: forward (`*d++ = *s++`) or backward from the end
(`*--d = *--s`).  The kernel's goes backward when the source starts below the destination and
runs into it (`s < d && s + n > d`); the user library's goes forward when the source starts
above the destination (`src > dst`) and backward otherwise, and its count is an `int`, so
nothing is copied for `n ≤ 0`.

* `Moved m m' d s n`: `m'` holds at `d + i` what `m` held at `s + i`, for `i < n`, and agrees
  with `m` everywhere else;
* `copyFwd_moved`, `copyBwd_moved`: each loop moves the bytes when no byte is read after the loop
  has overwritten it, a condition on the distance from source to destination;
* `memmove_moves`: both `memmove`s move the bytes for every source, destination and count,
  whichever way the regions overlap.
-/

namespace Xv6

variable {α : Type}

/-- The forward loop `while(n-- > 0) *d++ = *s++;`. -/
def copyFwd : (ℕ → α) → ℕ → ℕ → ℕ → (ℕ → α)
  | m, _, _, 0 => m
  | m, d, s, n + 1 => copyFwd (Function.update m d (m s)) (d + 1) (s + 1) n

/-- The backward loop `d += n; s += n; while(n-- > 0) *--d = *--s;`: the turn that leaves `n`
copies the byte at `s + n` to `d + n`. -/
def copyBwd : (ℕ → α) → ℕ → ℕ → ℕ → (ℕ → α)
  | m, _, _, 0 => m
  | m, d, s, n + 1 => copyBwd (Function.update m (d + n) (m (s + n))) d s n

namespace String

/-- `memmove` of `kernel/string.c`, with its `uint` count. -/
def memmove (m : ℕ → α) (dst src n : ℕ) : ℕ → α :=
  if n = 0 then m
  else if src < dst ∧ src + n > dst then copyBwd m dst src n
  else copyFwd m dst src n

end String

namespace Ulib

/-- `memmove` of `user/ulib.c`, with its `int` count. -/
def memmove (m : ℕ → α) (vdst vsrc : ℕ) (n : ℤ) : ℕ → α :=
  if vsrc > vdst then copyFwd m vdst vsrc n.toNat
  else copyBwd m vdst vsrc n.toNat

end Ulib

/-- `m'` holds at `d + i` the byte `m` held at `s + i`, for every `i < n`, and agrees with `m`
outside `[d, d + n)`. -/
structure Moved (m m' : ℕ → α) (d s n : ℕ) : Prop where
  copied : ∀ i < n, m' (d + i) = m (s + i)
  frame : ∀ a, a < d ∨ d + n ≤ a → m' a = m a

theorem moved_zero (m : ℕ → α) (d s : ℕ) : Moved m m d s 0 :=
  ⟨fun _ hi => absurd hi (Nat.not_lt_zero _), fun _ _ => rfl⟩

/-- The forward loop moves the bytes when it never reads a byte it has already written: the
read at `s + j` comes after the writes at `d + i` for `i < j`. -/
theorem copyFwd_moved : ∀ (n : ℕ) (m : ℕ → α) (d s : ℕ),
    (∀ i j, i < j → j < n → s + j ≠ d + i) → Moved m (copyFwd m d s n) d s n
  | 0, m, d, s, _ => moved_zero m d s
  | n + 1, m, d, s, h => by
    have hrest := copyFwd_moved n (Function.update m d (m s)) (d + 1) (s + 1)
      fun i j hij hj => by
        have := h (i + 1) (j + 1) (by omega) (by omega)
        omega
    have hread : ∀ i, i < n → s + (i + 1) ≠ d := fun i hi => by
      have := h 0 (i + 1) (by omega) (by omega)
      omega
    constructor
    · intro i hi
      rw [copyFwd]
      cases i with
      | zero =>
        show copyFwd _ (d + 1) (s + 1) n d = m s
        rw [hrest.frame d (.inl (by omega)), Function.update_self]
      | succ i =>
        have hcopy := hrest.copied i (by omega)
        rw [show d + 1 + i = d + (i + 1) by omega, show s + 1 + i = s + (i + 1) by omega,
          Function.update_of_ne (hread i (by omega))] at hcopy
        exact hcopy
    · intro a ha
      rw [copyFwd, hrest.frame a (by omega), Function.update_of_ne (by omega)]

/-- The backward loop moves the bytes when it never reads a byte it has already written: the
read at `s + j` comes after the writes at `d + i` for `j < i`. -/
theorem copyBwd_moved : ∀ (n : ℕ) (m : ℕ → α) (d s : ℕ),
    (∀ i j, j < i → i < n → s + j ≠ d + i) → Moved m (copyBwd m d s n) d s n
  | 0, m, d, s, _ => moved_zero m d s
  | n + 1, m, d, s, h => by
    have hrest := copyBwd_moved n (Function.update m (d + n) (m (s + n))) d s
      fun i j hji hi => h i j hji (by omega)
    constructor
    · intro i hi
      rw [copyBwd]
      rcases Nat.lt_succ_iff_lt_or_eq.1 hi with hi | rfl
      · rw [hrest.copied i hi, Function.update_of_ne (h n i hi (by omega))]
      · rw [hrest.frame (d + i) (.inr (Nat.le_refl _)), Function.update_self]
    · intro a ha
      rw [copyBwd, hrest.frame a (by omega), Function.update_of_ne (by omega)]

/-- Both `memmove`s move `n` bytes from `src` to `dst` and change nothing else, whichever way the
regions overlap; the user library's moves nothing for a count `n ≤ 0`. -/
theorem memmove_moves (m : ℕ → α) (dst src n : ℕ) (k : ℤ) :
    Moved m (String.memmove m dst src n) dst src n ∧
      Moved m (Ulib.memmove m dst src k) dst src k.toNat := by
  constructor
  · unfold String.memmove
    split_ifs with hn hback
    · subst hn
      exact moved_zero m dst src
    · exact copyBwd_moved n m dst src fun i j hji _ => by omega
    · exact copyFwd_moved n m dst src fun i j hij hj => by omega
  · unfold Ulib.memmove
    split_ifs with hfwd
    · exact copyFwd_moved _ m dst src fun i j hij _ => by omega
    · exact copyBwd_moved _ m dst src fun i j hji _ => by omega

end Xv6
