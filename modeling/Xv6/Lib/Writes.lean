import Mathlib.Tactic

/-!
# Lists of single-location writes

A store is a function `κ → β` from locations to contents, and a write is a pair
`(location, contents)`.  `Writes.apply d ws` is the store after the writes `ws`, issued in order
against `d`.  A crash after `k` writes leaves `Writes.apply d (ws.take k)`.

The lemmas are the ones a crash-recovery argument needs:

* a location no write names keeps its contents (`apply_of_forall_ne`);
* a location the writes name holds the contents of its last write, whatever it held before
  (`apply_congr`, `apply_eq_of_mem`);
* so running all of `ws` after any prefix of `ws` gives what running `ws` alone gives
  (`apply_apply_take`): re-running an interrupted sequence of writes is harmless.
-/

namespace Writes

variable {κ β : Type*} [DecidableEq κ]

/-- The store after the writes `ws`, in order. -/
def apply (d : κ → β) : List (κ × β) → κ → β
  | [] => d
  | w :: ws => apply (Function.update d w.1 w.2) ws

@[simp] theorem apply_nil (d : κ → β) : apply d [] = d := rfl

@[simp] theorem apply_cons (d : κ → β) (w : κ × β) (ws : List (κ × β)) :
    apply d (w :: ws) = apply (Function.update d w.1 w.2) ws := rfl

theorem apply_append (d : κ → β) (ws vs : List (κ × β)) :
    apply d (ws ++ vs) = apply (apply d ws) vs := by
  induction ws generalizing d with
  | nil => rfl
  | cons w ws ih => exact ih _

/-- A location that no write names keeps its contents. -/
theorem apply_of_forall_ne {d : κ → β} {x : κ} :
    ∀ {ws : List (κ × β)}, (∀ w ∈ ws, w.1 ≠ x) → apply d ws x = d x
  | [], _ => rfl
  | w :: ws, h => by
    rw [apply_cons, apply_of_forall_ne (fun v hv => h v (List.mem_cons_of_mem _ hv))]
    exact Function.update_of_ne (Ne.symm (h w List.mem_cons_self)) _ _

/-- Two stores that agree at `x` still agree there after the same writes; and at a location
the writes name they agree whatever they held before. -/
theorem apply_congr {x : κ} :
    ∀ {ws : List (κ × β)} {a b : κ → β}, ((∃ w ∈ ws, w.1 = x) ∨ a x = b x) →
      apply a ws x = apply b ws x
  | [], _, _, h => by
    rcases h with ⟨w, hw, _⟩ | h
    · simp at hw
    · exact h
  | w :: ws, a, b, h => by
    simp only [apply_cons]
    apply apply_congr
    by_cases hw : w.1 = x
    · right
      subst hw
      simp
    · rcases h with ⟨v, hv, hvx⟩ | h
      · rcases List.mem_cons.1 hv with rfl | hv
        · exact absurd hvx hw
        · exact Or.inl ⟨v, hv, hvx⟩
      · right
        simp [Function.update_of_ne (Ne.symm hw), h]

/-- Re-running all the writes after an interrupted run of them gives the same store. -/
theorem apply_apply_take (d : κ → β) (ws : List (κ × β)) (k : ℕ) :
    apply (apply d (ws.take k)) ws = apply d ws := by
  funext x
  apply apply_congr
  by_cases h : ∃ w ∈ ws, w.1 = x
  · exact Or.inl h
  · right
    apply apply_of_forall_ne
    intro w hw hwx
    exact h ⟨w, List.mem_of_mem_take hw, hwx⟩

/-- After writes to pairwise distinct locations, each named location holds its write. -/
theorem apply_eq_of_mem {d : κ → β} :
    ∀ {ws : List (κ × β)}, (ws.map Prod.fst).Nodup → ∀ {w : κ × β}, w ∈ ws →
      apply d ws w.1 = w.2
  | [], _, _, hw => by simp at hw
  | v :: ws, hnd, w, hw => by
    rw [List.map_cons, List.nodup_cons] at hnd
    rw [apply_cons]
    rcases List.mem_cons.1 hw with rfl | hw
    · rw [apply_of_forall_ne]
      · simp
      · intro u hu hux
        exact hnd.1 (hux ▸ List.mem_map_of_mem hu)
    · exact apply_eq_of_mem hnd.2 hw

/-! ### Blocks of consecutive locations -/

section Block

variable {β : Type*}

/-- The writes of `bs` to the consecutive locations from `dst`, as `memmove(dst, bs, n)` does. -/
def block : ℕ → List β → List (ℕ × β)
  | _, [] => []
  | dst, b :: bs => (dst, b) :: block (dst + 1) bs

theorem mem_block {p : ℕ × β} : ∀ {dst : ℕ} {bs : List β}, p ∈ block dst bs →
    dst ≤ p.1 ∧ p.1 < dst + bs.length
  | _, [], h => by simp [block] at h
  | dst, b :: bs, h => by
    rcases List.mem_cons.1 h with rfl | h
    · simp
    · have := mem_block h
      simp only [List.length_cons]
      omega

/-- Outside the block, nothing changes. -/
theorem apply_block_of_lt_or_le {d : ℕ → β} {dst x : ℕ} {bs : List β}
    (hx : x < dst ∨ dst + bs.length ≤ x) : apply d (block dst bs) x = d x := by
  apply apply_of_forall_ne
  intro p hp hpx
  have := mem_block hp
  omega

/-- Inside the block, location `dst + i` holds `bs[i]`. -/
theorem apply_block_add : ∀ (d : ℕ → β) (dst : ℕ) (bs : List β) (i : ℕ) (h : i < bs.length),
    apply d (block dst bs) (dst + i) = bs[i]
  | _, _, [], _, h => absurd h (Nat.not_lt_zero _)
  | d, dst, b :: bs, 0, _ => by
    rw [block, apply_cons, apply_block_of_lt_or_le (by omega)]
    simp
  | d, dst, b :: bs, i + 1, h => by
    rw [block, apply_cons, show dst + (i + 1) = dst + 1 + i by omega]
    exact apply_block_add _ (dst + 1) bs i (by simpa using h)

end Block

end Writes
