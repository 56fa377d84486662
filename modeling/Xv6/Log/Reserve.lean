import Xv6.Log.Txn

/-!
# The reservation of `begin_op` against the size of the log

`begin_op` admits an operation only if `log.lh.n + (log.outstanding + 1) * MAXOPBLOCKS` stays
within `LOGSIZE`, on the promise that every operation logs at most `MAXOPBLOCKS` distinct blocks.
`boundedStep` is the system under that promise.  Then the header plus what the running operations
may still add never exceeds `LOGSIZE` (`BInv`), so a write by an operation with budget left finds
`lh.n < LOGSIZE` (`lh_lt_logSize`).

`log_write` also panics at `lh.n >= log.size - 1`, and `mkfs` sets `nlog = LOGSIZE`: the log has
`LOGSIZE - 1` slots after its header block, one fewer than `begin_op` reserves
(`log_write_panics_within_bound`).
-/

namespace Xv6.Log

variable {ι D : Type*} [DecidableEq ι]

/-- The file system's side of the reservation: an operation logs at most `MAXOPBLOCKS`
distinct blocks. -/
def Bounded (s : Sys ι D) : Action ι D → Prop
  | .write p b _ => b ∈ (s.proc p).logged ∨ (s.proc p).logged.length < maxOpBlocks
  | _ => True

instance (s : Sys ι D) (a : Action ι D) : Decidable (Bounded s a) :=
  match a with
  | .write p b _ =>
    inferInstanceAs (Decidable (b ∈ (s.proc p).logged ∨ (s.proc p).logged.length < maxOpBlocks))
  | .beginOp _ | .endOp _ | .commit _ => inferInstanceAs (Decidable True)

/-- The system whose operations keep to `MAXOPBLOCKS` blocks. -/
def boundedStep (s : Sys ι D) (a : Action ι D) : Option (Sys ι D) :=
  if Bounded s a then step s a else none

/-- The part of its `MAXOPBLOCKS` reservation an operation has not used yet. -/
def Op.slack : Op → ℕ
  | .inOp ws => maxOpBlocks - ws.length
  | _ => 0

@[simp] theorem Op.slack_idle : Op.idle.slack = 0 := rfl
@[simp] theorem Op.slack_inOp (ws : List ℕ) : (Op.inOp ws).slack = maxOpBlocks - ws.length := rfl
@[simp] theorem Op.slack_committer : Op.committer.slack = 0 := rfl

theorem Op.slack_le (o : Op) : o.slack ≤ maxOpBlocks * o.busy := by
  cases o <;> simp

section Bound

variable {s s' : Sys ι D} {a : Action ι D}

theorem step_of_boundedStep (h : boundedStep s a = some s') : step s a = some s' := by
  unfold boundedStep at h
  split_ifs at h
  exact h

theorem reachable_of_bounded {start : ℕ} {d : Disk D}
    (hs : Steps.Reachable boundedStep (init start d) s) : Steps.Reachable step (init start d) s :=
  Steps.Reachable.mono (fun _ a _ h => ⟨a, step_of_boundedStep h⟩) hs

variable [Fintype ι]

/-- The reservation invariant: the header plus the unused budgets of the running operations fit
in `LOGSIZE`. -/
structure BInv (s : Sys ι D) : Prop where
  inv : Inv s
  reserve : s.log.lh.length + ∑ q, (s.proc q).slack ≤ logSize
  budget : ∀ q, (s.proc q).logged.length ≤ maxOpBlocks

omit [DecidableEq ι] in
theorem binv_init (start : ℕ) (d : Disk D) : BInv (init start d : Sys ι D) where
  inv := inv_init start d
  reserve := by simp [init]
  budget := fun q => by simp [init]

omit [DecidableEq ι] in
/-- The unused budgets add up to at most `MAXOPBLOCKS` per outstanding operation. -/
theorem Inv.slack_le (hs : Inv s) : ∑ q, (s.proc q).slack ≤ maxOpBlocks * s.log.outstanding := by
  rw [hs.outstanding]
  exact Family.sum_le_mul_sum Op.slack_le s.proc

theorem BInv.beginOp {p : ι} (hs : BInv s) (h : step s (.beginOp p) = some s') : BInv s' := by
  have hi := hs.inv.beginOp h
  obtain ⟨hp, -, hfit, rfl⟩ := step_beginOp h
  have hsum := Family.sum_update_add Op.slack s.proc p (.inOp [])
  rw [hp, Op.slack_idle, Op.slack_inOp, List.length_nil] at hsum
  have hle := hs.inv.slack_le
  refine ⟨hi, ?_, fun q => ?_⟩
  · -- the new operation's whole budget is what `begin_op` checked room for
    dsimp only
    rw [Nat.sub_zero] at hsum
    have : maxOpBlocks * (s.log.outstanding + 1) = maxOpBlocks * s.log.outstanding + maxOpBlocks :=
      Nat.mul_succ _ _
    rw [Nat.mul_comm] at hfit
    omega
  · dsimp only
    by_cases hqp : q = p
    · subst hqp
      simp
    · rw [Function.update_of_ne hqp]
      exact hs.budget q

theorem BInv.write {p : ι} {b : ℕ} {v : D} (hs : BInv s) (hb : Bounded s (.write p b v))
    (h : step s (.write p b v) = some s') : BInv s' := by
  have hi := hs.inv.write h
  obtain ⟨ws, hp, -, -, -, rfl⟩ := step_write h
  simp only [Bounded, hp, Op.logged_inOp] at hb
  have hsum := Family.sum_update_add Op.slack s.proc p
    (.inOp (if b ∈ ws then ws else ws ++ [b]))
  rw [hp, Op.slack_inOp, Op.slack_inOp] at hsum
  have hres := hs.reserve
  refine ⟨hi, ?_, fun q => ?_⟩
  · dsimp only
    by_cases hbw : b ∈ ws
    · -- absorbed by the operation itself, so by the header too
      have hbl : b ∈ s.log.lh := (hs.inv.mem_lh b).2 (Or.inr ⟨p, by rw [hp]; exact hbw⟩)
      simp only [hbl, hbw, if_true] at hsum ⊢
      omega
    · -- a new block for the operation: at most one more slot, one less in the budget
      have hlt : ws.length < maxOpBlocks := hb.resolve_left hbw
      simp only [hbw, if_false] at hsum ⊢
      simp only [List.length_append, List.length_singleton] at hsum
      have hlen : (if b ∈ s.log.lh then s.log.lh else s.log.lh ++ [b]).length ≤
          s.log.lh.length + 1 := by
        split_ifs <;> simp
      omega
  · dsimp only
    by_cases hqp : q = p
    · subst hqp
      rw [Function.update_self, Op.logged_inOp]
      split_ifs with hbw
      · have := hs.budget q
        rwa [hp, Op.logged_inOp] at this
      · simp only [List.length_append, List.length_singleton]
        exact hb.resolve_left hbw
    · rw [Function.update_of_ne hqp]
      exact hs.budget q

theorem BInv.endOp {p : ι} (hs : BInv s) (h : step s (.endOp p) = some s') : BInv s' := by
  have hi := hs.inv.endOp h
  obtain ⟨ws, hp, -, rfl⟩ := step_endOp h
  have hnew : (if s.log.outstanding - 1 = 0 then Op.committer else Op.idle).slack = 0 := by
    split_ifs <;> rfl
  have hnewl : (if s.log.outstanding - 1 = 0 then Op.committer else Op.idle).logged = [] := by
    split_ifs <;> rfl
  have hsum := Family.sum_update_add Op.slack s.proc p
    (if s.log.outstanding - 1 = 0 then .committer else .idle)
  rw [hp, hnew] at hsum
  have hres := hs.reserve
  refine ⟨hi, ?_, fun q => ?_⟩
  · dsimp only
    omega
  · dsimp only
    by_cases hqp : q = p
    · subst hqp
      simp [hnewl]
    · rw [Function.update_of_ne hqp]
      exact hs.budget q

theorem BInv.commit {p : ι} (hs : BInv s) (h : step s (.commit p) = some s') : BInv s' := by
  have hi := hs.inv.commit h
  obtain ⟨hp, rfl⟩ := step_commit h
  have hc : s.log.committing = true := hs.inv.committing.2 ⟨p, hp⟩
  -- nobody is inside an operation, so nobody holds a budget
  have hzero : ∀ q, (Function.update s.proc p .idle q).slack = 0 := by
    intro q
    have := Op.slack_le (Function.update s.proc p .idle q)
    by_cases hqp : q = p
    · subst hqp
      simp
    · rw [Function.update_of_ne hqp] at this ⊢
      rw [hs.inv.busy_eq_zero hc q] at this
      omega
  refine ⟨hi, ?_, fun q => ?_⟩
  · simp [endCommit, hzero, logSize, maxOpBlocks]
  · dsimp only
    by_cases hqp : q = p
    · subst hqp
      simp
    · rw [Function.update_of_ne hqp, hs.inv.logged_eq_nil hc q]
      simp

theorem binv_boundedStep (hs : BInv s) (h : boundedStep s a = some s') : BInv s' := by
  have hb : Bounded s a := by
    unfold boundedStep at h
    split_ifs at h with hb
    exact hb
  have h' := step_of_boundedStep h
  cases a with
  | beginOp p => exact hs.beginOp h'
  | write p b v => exact hs.write hb h'
  | endOp p => exact hs.endOp h'
  | commit p => exact hs.commit h'

theorem binv_of_reachable {start : ℕ} {d : Disk D}
    (hs : Steps.Reachable boundedStep (init start d) s) : BInv s :=
  Steps.Reachable.inv (binv_init start d) (fun _ _ _ hi h => binv_boundedStep hi h) hs

/-- What `begin_op`'s reservation guarantees: an operation with budget left finds fewer than
`LOGSIZE` blocks in the header when it calls `log_write`. -/
theorem lh_lt_logSize {start : ℕ} {d : Disk D} {p : ι} {ws : List ℕ}
    (hs : Steps.Reachable boundedStep (init start d) s) (hp : s.proc p = .inOp ws)
    (hlt : ws.length < maxOpBlocks) : s.log.lh.length < logSize := by
  have hres := (binv_of_reachable hs).reserve
  have hone : (s.proc p).slack ≤ ∑ q, (s.proc q).slack :=
    Finset.single_le_sum (f := fun q => (s.proc q).slack) (fun _ _ => Nat.zero_le _)
      (Finset.mem_univ p)
  rw [hp, Op.slack_inOp] at hone
  omega

end Bound

/-! ### One slot short -/

/-- Three operations start together, which `begin_op` allows, and log ten, ten and nine
distinct blocks. -/
def threeOps : List (Action (Fin 3) ℕ) :=
  [.beginOp 0, .beginOp 1, .beginOp 2] ++
    (List.range 10).map (fun i => .write 0 (100 + i) 1) ++
    (List.range 10).map (fun i => .write 1 (110 + i) 1) ++
    (List.range 9).map (fun i => .write 2 (120 + i) 1)

/-- After `threeOps` the header holds `29 = log.size - 1` blocks, fewer than `LOGSIZE`; the third
operation's tenth block is within its budget, yet `log_write` panics on it, and on a rewrite of
a block the header already lists. -/
theorem log_write_panics_within_bound :
    ∃ s, Steps.run boundedStep (init 2 ⟨[], fun _ => 0⟩) threeOps = some s ∧
      Bounded s (.write 2 129 1) ∧ s.proc 2 = .inOp ((List.range 9).map (120 + ·)) ∧
      s.log.lh.length = s.log.size - 1 ∧ s.log.lh.length < logSize ∧
      logWrite s.log 129 = .error "too big a transaction" ∧
      logWrite s.log 128 = .error "too big a transaction" :=
  ⟨_, rfl, by decide, rfl, rfl, by decide, rfl, rfl⟩

end Xv6.Log
