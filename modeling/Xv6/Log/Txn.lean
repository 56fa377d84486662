import Xv6.Log.Recovery
import Xv6.Lib.Run
import Xv6.Lib.Family
import Xv6.Param

/-!
# Group commit: `begin_op`, `log_write`, `end_op` (`kernel/log.c`)

File-system system calls bracket their updates with `begin_op` and `end_op` and record each
block they change with `log_write`.  The log commits when the last outstanding operation ends,
so one commit carries the blocks of every operation that finished since the one before.

The model is a system of processes `ι` (any finite number) sharing the in-memory `struct log`
(`State`), the buffer cache's contents and the disk.  Each action is one critical section:

* `beginOp p`: `begin_op` returns; it is not enabled while `begin_op` would sleep;
* `write p b v`: the operation sets its buffer of block `b` to `v` and calls `log_write`;
* `endOp p`: the locked part of `end_op`;
* `commit p`: the rest of the `end_op` that set `do_commit`: `commit()`, then
  `log.committing = 0`.

A panic stops the kernel, so a step that would panic is not taken.  Ghost state records the
blocks each operation has logged (`Op.inOp`) and those logged by the operations that have ended
since the last commit (`Sys.ended`).

* `Inv`, `inv_of_reachable`: `log.outstanding` counts the processes inside operations; at most
  one process commits, and only when none is inside an operation; the header lists each logged
  block once;
* `BInv`, `lh_lt_logSize`: when operations keep to `MAXOPBLOCKS` blocks (`boundedStep`), the
  reservation `begin_op` makes keeps `lh.n < LOGSIZE` for every write with budget left.
-/

namespace Xv6.Log

/-! ### `struct log` and the critical sections of `log.c` -/

/-- The in-memory `struct log`, less its lock and device. -/
structure State where
  /-- `log.start`: the header block. -/
  start : ℕ
  /-- `log.size`: the superblock's `nlog`. -/
  size : ℕ
  /-- `log.outstanding`: how many FS system calls are executing. -/
  outstanding : ℕ
  /-- `log.committing`: in `commit()`. -/
  committing : Bool
  /-- `log.lh.block[0..log.lh.n)`. -/
  lh : List ℕ
  deriving DecidableEq

/-- `begin_op`: the log once it returns, or `none` while it sleeps because a commit is running
or this operation's `MAXOPBLOCKS` might not fit. -/
def beginOp (log : State) : Option State :=
  if log.committing then none
  else if logSize < log.lh.length + (log.outstanding + 1) * maxOpBlocks then none
  else some { log with outstanding := log.outstanding + 1 }

/-- The locked part of `end_op`: the log after it, and `do_commit`. -/
def endOp (log : State) : Except String (State × Bool) :=
  let log := { log with outstanding := log.outstanding - 1 }
  if log.committing then .error "log.committing"
  else if log.outstanding = 0 then .ok ({ log with committing := true }, true)
  else .ok (log, false)

/-- `log_write(b)` for a buffer of block `blockno`: absorbed when the header lists the block,
appended otherwise.  (`log.size - 1` is an `int` in C; against a header length it compares the
same in `ℕ`.) -/
def logWrite (log : State) (blockno : ℕ) : Except String State :=
  if logSize ≤ log.lh.length ∨ log.size - 1 ≤ log.lh.length then .error "too big a transaction"
  else if log.outstanding < 1 then .error "log_write outside of trans"
  else if blockno ∈ log.lh then .ok log
  else .ok { log with lh := log.lh ++ [blockno] }

/-- The in-memory effect of `commit()` and of the locked section after it. -/
def endCommit (log : State) : State := { log with lh := [], committing := false }

theorem beginOp_eq_some {log log' : State} :
    beginOp log = some log' ↔ log.committing = false ∧
      log.lh.length + (log.outstanding + 1) * maxOpBlocks ≤ logSize ∧
      log' = { log with outstanding := log.outstanding + 1 } := by
  unfold beginOp
  split_ifs with hc hfit
  · simp [hc]
  · simp only [false_iff, not_and]
    omega
  · simp only [Bool.not_eq_true] at hc
    simp only [Option.some.injEq, hc, true_and]
    constructor
    · rintro rfl
      exact ⟨by omega, rfl⟩
    · rintro ⟨-, rfl⟩
      rfl

theorem endOp_eq_ok {log log' : State} {doCommit : Bool} :
    endOp log = .ok (log', doCommit) ↔ log.committing = false ∧
      doCommit = decide (log.outstanding - 1 = 0) ∧
      log' = { log with outstanding := log.outstanding - 1, committing := doCommit } := by
  unfold endOp
  cases hc : log.committing
  · by_cases h0 : log.outstanding - 1 = 0
    · simp only [h0, if_true, decide_true, true_and]
      grind
    · simp only [h0, if_false, decide_false, true_and]
      grind
  · simp

theorem logWrite_eq_ok {log log' : State} {blockno : ℕ} :
    logWrite log blockno = .ok log' ↔ log.lh.length < logSize ∧
      log.lh.length + 1 < log.size ∧ 1 ≤ log.outstanding ∧
      log' = { log with lh := if blockno ∈ log.lh then log.lh else log.lh ++ [blockno] } := by
  unfold logWrite
  by_cases hbig : logSize ≤ log.lh.length ∨ log.size - 1 ≤ log.lh.length
  · rw [if_pos hbig]
    simp only [reduceCtorEq, false_iff]
    omega
  by_cases hout : log.outstanding < 1
  · rw [if_neg hbig, if_pos hout]
    simp only [reduceCtorEq, false_iff]
    omega
  rw [if_neg hbig, if_neg hout]
  constructor
  · intro h
    refine ⟨by omega, by omega, by omega, ?_⟩
    by_cases hb : blockno ∈ log.lh
    · rw [if_pos hb] at h ⊢
      cases h
      rfl
    · rw [if_neg hb] at h ⊢
      cases h
      rfl
  · rintro ⟨-, -, -, rfl⟩
    by_cases hb : blockno ∈ log.lh
    · rw [if_pos hb, if_pos hb]
    · rw [if_neg hb, if_neg hb]

/-! ### The system of processes -/

/-- What a process is doing with the log. -/
inductive Op
  /-- Outside any file-system operation. -/
  | idle
  /-- Between `begin_op` and `end_op`, having logged the distinct blocks `logged` (ghost). -/
  | inOp (logged : List ℕ)
  /-- Past the locked part of `end_op` with `do_commit` set. -/
  | committer
  deriving DecidableEq

/-- One for a process inside an operation: what `log.outstanding` counts. -/
def Op.busy : Op → ℕ
  | .inOp _ => 1
  | _ => 0

/-- The blocks the process's operation has logged. -/
def Op.logged : Op → List ℕ
  | .inOp ws => ws
  | _ => []

@[simp] theorem Op.busy_idle : Op.idle.busy = 0 := rfl
@[simp] theorem Op.busy_inOp (ws : List ℕ) : (Op.inOp ws).busy = 1 := rfl
@[simp] theorem Op.busy_committer : Op.committer.busy = 0 := rfl
@[simp] theorem Op.logged_idle : Op.idle.logged = [] := rfl
@[simp] theorem Op.logged_inOp (ws : List ℕ) : (Op.inOp ws).logged = ws := rfl
@[simp] theorem Op.logged_committer : Op.committer.logged = [] := rfl

/-- The log, the buffer cache, the disk and the processes. -/
structure Sys (ι D : Type*) where
  log : State
  /-- The contents of each block in the buffer cache. -/
  cache : ℕ → D
  disk : Disk D
  proc : ι → Op
  /-- Ghost: the blocks logged by the operations that have ended since the last commit. -/
  ended : List ℕ

/-- One critical section of one process. -/
inductive Action (ι D : Type*)
  | beginOp (p : ι)
  | write (p : ι) (b : ℕ) (v : D)
  | endOp (p : ι)
  | commit (p : ι)

variable {ι D : Type*} [DecidableEq ι]

/-- One step of the system; `none` when the action is not enabled or would panic. -/
def step (s : Sys ι D) : Action ι D → Option (Sys ι D)
  | .beginOp p =>
    match s.proc p, beginOp s.log with
    | .idle, some log => some { s with log := log, proc := Function.update s.proc p (.inOp []) }
    | _, _ => none
  | .write p b v =>
    match s.proc p, logWrite s.log b with
    | .inOp ws, .ok log =>
      some { s with
        log := log
        cache := Function.update s.cache b v
        proc := Function.update s.proc p (.inOp (if b ∈ ws then ws else ws ++ [b])) }
    | _, _ => none
  | .endOp p =>
    match s.proc p, endOp s.log with
    | .inOp ws, .ok (log, doCommit) =>
      some { s with
        log := log
        proc := Function.update s.proc p (if doCommit then .committer else .idle)
        ended := s.ended ++ ws }
    | _, _ => none
  | .commit p =>
    match s.proc p with
    | .committer =>
      some { s with
        log := endCommit s.log
        disk := s.disk.run (commit s.log.start s.log.lh s.cache s.disk)
        proc := Function.update s.proc p .idle
        ended := [] }
    | _ => none

/-- The system after `initlog`: `log.size` is the superblock's `nlog` as `mkfs` writes it,
`recover_from_log` has run on the disk, and the cache holds what the disk holds. -/
def init (start : ℕ) (d : Disk D) : Sys ι D where
  log := { start := start, size := nlog, outstanding := 0, committing := false, lh := [] }
  cache := (recover start d).blk
  disk := recover start d
  proc := fun _ => .idle
  ended := []

/-! ### What each step does -/

section Steps

variable {s s' : Sys ι D} {p : ι}

theorem step_beginOp (h : step s (.beginOp p) = some s') :
    s.proc p = .idle ∧ s.log.committing = false ∧
      s.log.lh.length + (s.log.outstanding + 1) * maxOpBlocks ≤ logSize ∧
      s' = { s with
        log := { s.log with outstanding := s.log.outstanding + 1 }
        proc := Function.update s.proc p (.inOp []) } := by
  simp only [step] at h
  split at h
  · rename_i log hp hlog
    obtain ⟨hc, hfit, rfl⟩ := beginOp_eq_some.1 hlog
    exact ⟨hp, hc, hfit, (Option.some.inj h).symm⟩
  · cases h

theorem step_write {b : ℕ} {v : D} (h : step s (.write p b v) = some s') :
    ∃ ws, s.proc p = .inOp ws ∧ s.log.lh.length < logSize ∧
      s.log.lh.length + 1 < s.log.size ∧ 1 ≤ s.log.outstanding ∧
      s' = { s with
        log := { s.log with lh := if b ∈ s.log.lh then s.log.lh else s.log.lh ++ [b] }
        cache := Function.update s.cache b v
        proc := Function.update s.proc p (.inOp (if b ∈ ws then ws else ws ++ [b])) } := by
  simp only [step] at h
  split at h
  · rename_i ws log hp hlog
    obtain ⟨hbig, hsize, hout, rfl⟩ := logWrite_eq_ok.1 hlog
    exact ⟨ws, hp, hbig, hsize, hout, (Option.some.inj h).symm⟩
  · cases h

theorem step_endOp (h : step s (.endOp p) = some s') :
    ∃ ws, s.proc p = .inOp ws ∧ s.log.committing = false ∧
      s' = { s with
        log := { s.log with
          outstanding := s.log.outstanding - 1
          committing := decide (s.log.outstanding - 1 = 0) }
        proc := Function.update s.proc p
          (if s.log.outstanding - 1 = 0 then .committer else .idle)
        ended := s.ended ++ ws } := by
  simp only [step] at h
  split at h
  · rename_i ws log doCommit hp hlog
    obtain ⟨hc, rfl, rfl⟩ := endOp_eq_ok.1 hlog
    refine ⟨ws, hp, hc, ?_⟩
    rw [← Option.some.inj h]
    by_cases h0 : s.log.outstanding - 1 = 0 <;> simp [h0]
  · cases h

theorem step_commit (h : step s (.commit p) = some s') :
    s.proc p = .committer ∧
      s' = { s with
        log := endCommit s.log
        disk := s.disk.run (commit s.log.start s.log.lh s.cache s.disk)
        proc := Function.update s.proc p .idle
        ended := [] } := by
  simp only [step] at h
  split at h
  · rename_i hp
    exact ⟨hp, (Option.some.inj h).symm⟩
  · cases h

/-- No step changes where the log lies. -/
theorem step_log_start_size {a : Action ι D} (h : step s a = some s') :
    s'.log.start = s.log.start ∧ s'.log.size = s.log.size := by
  cases a with
  | beginOp p => obtain ⟨-, -, -, rfl⟩ := step_beginOp h; exact ⟨rfl, rfl⟩
  | write p b v => obtain ⟨ws, -, -, -, -, rfl⟩ := step_write h; exact ⟨rfl, rfl⟩
  | endOp p => obtain ⟨ws, -, -, rfl⟩ := step_endOp h; exact ⟨rfl, rfl⟩
  | commit p => obtain ⟨-, rfl⟩ := step_commit h; exact ⟨rfl, rfl⟩

end Steps

/-- A commit always leaves the header clear. -/
theorem Disk.run_commit_head (start : ℕ) (lh : List ℕ) (cache : ℕ → D) {d : Disk D}
    (h : d.head = []) : (d.run (commit start lh cache d)).head = [] := by
  unfold commit
  split_ifs
  · rw [Disk.run_append]
    rfl
  · exact h

/-! ### The invariant -/

variable [Fintype ι]

/-- The invariant of the group commit. -/
structure Inv (s : Sys ι D) : Prop where
  /-- The header lists each block once. -/
  nodup : s.log.lh.Nodup
  /-- The header lists exactly the blocks logged by ended operations and by running ones. -/
  mem_lh : ∀ b, b ∈ s.log.lh ↔ b ∈ s.ended ∨ ∃ q, b ∈ (s.proc q).logged
  /-- `log.outstanding` counts the processes inside operations. -/
  outstanding : s.log.outstanding = ∑ q, (s.proc q).busy
  /-- `log.committing` is set exactly while a process is about to commit. -/
  committing : s.log.committing = true ↔ ∃ q, s.proc q = .committer
  /-- At most one process commits. -/
  committer : ∀ q q', s.proc q = .committer → s.proc q' = .committer → q = q'
  /-- A commit runs only when no operation is outstanding. -/
  quiet : s.log.committing = true → s.log.outstanding = 0
  /-- Between commits the header block is clear. -/
  head : s.disk.head = []
  /-- The header fits the log, header block included. -/
  size : s.log.lh.length < s.log.size

section Inv

variable {s s' : Sys ι D}

omit [DecidableEq ι] in
/-- No process is inside an operation while the log is committing. -/
theorem Inv.busy_eq_zero (hs : Inv s) (hc : s.log.committing = true) (q : ι) :
    (s.proc q).busy = 0 :=
  Family.eq_zero_of_sum_eq_zero (hs.outstanding ▸ hs.quiet hc) q

omit [DecidableEq ι] in
theorem Inv.not_inOp (hs : Inv s) (hc : s.log.committing = true) (q : ι) (ws : List ℕ) :
    s.proc q ≠ .inOp ws := by
  intro hq
  have := hs.busy_eq_zero hc q
  rw [hq, Op.busy_inOp] at this
  cases this

omit [DecidableEq ι] in
theorem Inv.logged_eq_nil (hs : Inv s) (hc : s.log.committing = true) (q : ι) :
    (s.proc q).logged = [] := by
  cases hq : s.proc q with
  | inOp ws => exact absurd hq (hs.not_inOp hc q ws)
  | idle => rfl
  | committer => rfl

omit [DecidableEq ι] in
/-- While the log is committing, the header lists exactly the blocks of the ended operations. -/
theorem Inv.mem_lh_iff_ended (hs : Inv s) (hc : s.log.committing = true) (b : ℕ) :
    b ∈ s.log.lh ↔ b ∈ s.ended := by
  rw [hs.mem_lh b]
  simp [hs.logged_eq_nil hc]

omit [DecidableEq ι] in
theorem inv_init (start : ℕ) (d : Disk D) : Inv (init start d : Sys ι D) where
  nodup := List.nodup_nil
  mem_lh := fun b => by simp [init, Op.logged]
  outstanding := by simp [init, Op.busy]
  committing := by simp [init]
  committer := fun q _ hq => by simp [init] at hq
  quiet := fun hc => by simp [init] at hc
  head := recover_head start d
  size := by simp [init, nlog, logSize, maxOpBlocks]

theorem Inv.beginOp {p : ι} (hs : Inv s) (h : step s (.beginOp p) = some s') : Inv s' := by
  obtain ⟨hp, hc, -, rfl⟩ := step_beginOp h
  have hsum := Family.sum_update_add Op.busy s.proc p (.inOp [])
  rw [hp, Op.busy_idle, Op.busy_inOp] at hsum
  refine ⟨hs.nodup, fun b => ?_, ?_, ?_, fun q q' hq hq' => ?_, fun hc' => ?_, hs.head, hs.size⟩
  all_goals dsimp only at *
  · -- the new operation has logged nothing yet
    rw [hs.mem_lh b, Function.exists_update_iff s.proc (fun q o => b ∈ o.logged)]
    constructor
    · rintro (h | ⟨q, hq⟩)
      · exact Or.inl h
      · have hqp : q ≠ p := by rintro rfl; simp [hp, Op.logged] at hq
        exact Or.inr (Or.inr ⟨q, hqp, hq⟩)
    · rintro (h | h | ⟨q, -, hq⟩)
      · exact Or.inl h
      · simp [Op.logged] at h
      · exact Or.inr ⟨q, hq⟩
  · simp only [hs.outstanding]
    omega
  · simp only [hc, Bool.false_eq_true, false_iff, not_exists]
    intro q hq
    by_cases hqp : q = p
    · subst hqp; simp at hq
    · rw [Function.update_of_ne hqp] at hq
      exact hs.committing.2.mt (by simp [hc]) ⟨q, hq⟩
  · have hq0 : q ≠ p := by rintro rfl; simp at hq
    have hq0' : q' ≠ p := by rintro rfl; simp at hq'
    rw [Function.update_of_ne hq0] at hq
    rw [Function.update_of_ne hq0'] at hq'
    exact hs.committer q q' hq hq'
  · simp [hc] at hc'

theorem Inv.write {p : ι} {b : ℕ} {v : D} (hs : Inv s) (h : step s (.write p b v) = some s') :
    Inv s' := by
  obtain ⟨ws, hp, -, hsize, -, rfl⟩ := step_write h
  have hsum := Family.sum_update_add Op.busy s.proc p (.inOp (if b ∈ ws then ws else ws ++ [b]))
  rw [hp, Op.busy_inOp, Op.busy_inOp] at hsum
  have hnotc : ∀ q, Function.update s.proc p (.inOp (if b ∈ ws then ws else ws ++ [b])) q =
      .committer ↔ s.proc q = .committer := by
    intro q
    by_cases hqp : q = p
    · subst hqp; simp [hp]
    · rw [Function.update_of_ne hqp]
  refine ⟨?_, fun c => ?_, ?_, ?_, fun q q' hq hq' => ?_, hs.quiet, hs.head, ?_⟩
  all_goals dsimp only at *
  · split_ifs with hb
    · exact hs.nodup
    · exact hs.nodup.append (List.nodup_singleton b) (by simpa using hb)
  · -- the written block joins both the header and the operation's blocks
    have hlh : c ∈ (if b ∈ s.log.lh then s.log.lh else s.log.lh ++ [b]) ↔ c ∈ s.log.lh ∨ c = b := by
      split_ifs with hb
      · exact ⟨Or.inl, fun h => h.elim id (fun h => h ▸ hb)⟩
      · simp
    have hws : c ∈ (if b ∈ ws then ws else ws ++ [b]) ↔ c ∈ ws ∨ c = b := by
      split_ifs with hb
      · exact ⟨Or.inl, fun h => h.elim id (fun h => h ▸ hb)⟩
      · simp
    rw [hlh, hs.mem_lh c, Function.exists_update_iff s.proc (fun q o => c ∈ o.logged)]
    simp only [Op.logged, hws]
    constructor
    · rintro ((h | ⟨q, hq⟩) | rfl)
      · exact Or.inl h
      · by_cases hqp : q = p
        · subst hqp; rw [hp] at hq; exact Or.inr (Or.inl (Or.inl hq))
        · exact Or.inr (Or.inr ⟨q, hqp, hq⟩)
      · exact Or.inr (Or.inl (Or.inr rfl))
    · rintro (h | (h | rfl) | ⟨q, -, hq⟩)
      · exact Or.inl (Or.inl h)
      · exact Or.inl (Or.inr ⟨p, by rw [hp]; exact h⟩)
      · exact Or.inr rfl
      · exact Or.inl (Or.inr ⟨q, hq⟩)
  · simp only [hs.outstanding]
    omega
  · simp only [hnotc]
    exact hs.committing
  · rw [hnotc] at hq hq'
    exact hs.committer q q' hq hq'
  · split_ifs
    · exact hs.size
    · simp only [List.length_append, List.length_singleton]
      omega

theorem Inv.endOp {p : ι} (hs : Inv s) (h : step s (.endOp p) = some s') : Inv s' := by
  obtain ⟨ws, hp, hc, rfl⟩ := step_endOp h
  have hnew : (if s.log.outstanding - 1 = 0 then Op.committer else Op.idle).busy = 0 := by
    split_ifs <;> rfl
  have hlog : (if s.log.outstanding - 1 = 0 then Op.committer else Op.idle).logged = [] := by
    split_ifs <;> rfl
  have hsum := Family.sum_update_add Op.busy s.proc p
    (if s.log.outstanding - 1 = 0 then .committer else .idle)
  rw [hp, Op.busy_inOp, hnew] at hsum
  have hnone : ∀ q, s.proc q ≠ .committer := fun q hq => by
    simp [hs.committing.2 ⟨q, hq⟩] at hc
  -- the only committer afterwards is `p`
  have hnew_c : ∀ r, Function.update s.proc p
      (if s.log.outstanding - 1 = 0 then .committer else .idle) r = .committer → r = p := by
    intro r hr
    by_contra hrp
    rw [Function.update_of_ne hrp] at hr
    exact hnone r hr
  refine ⟨hs.nodup, fun b => ?_, ?_, ?_, fun q q' hq hq' => ?_, fun hc' => ?_, hs.head, hs.size⟩
  all_goals dsimp only at *
  · -- the operation's blocks move from the process to `ended`
    rw [hs.mem_lh b, Function.exists_update_iff s.proc (fun q o => b ∈ o.logged), hlog,
      List.mem_append]
    constructor
    · rintro (h | ⟨q, hq⟩)
      · exact Or.inl (Or.inl h)
      · by_cases hqp : q = p
        · subst hqp
          rw [hp] at hq
          exact Or.inl (Or.inr hq)
        · exact Or.inr (Or.inr ⟨q, hqp, hq⟩)
    · rintro ((h | h) | h | ⟨q, -, hq⟩)
      · exact Or.inl h
      · exact Or.inr ⟨p, by rw [hp]; exact h⟩
      · simp at h
      · exact Or.inr ⟨q, hq⟩
  · have := hs.outstanding
    omega
  · by_cases h0 : s.log.outstanding - 1 = 0
    · simp only [h0, decide_true, true_iff]
      exact ⟨p, by simp⟩
    · rw [decide_eq_false h0]
      simp only [Bool.false_eq_true, false_iff, not_exists]
      intro q hq
      rw [if_neg h0] at hq
      by_cases hqp : q = p
      · subst hqp
        simp at hq
      · rw [Function.update_of_ne hqp] at hq
        exact hnone q hq
  · rw [hnew_c q hq, hnew_c q' hq']
  · simpa using hc'

theorem Inv.commit {p : ι} (hs : Inv s) (h : step s (.commit p) = some s') : Inv s' := by
  obtain ⟨hp, rfl⟩ := step_commit h
  have hc : s.log.committing = true := hs.committing.2 ⟨p, hp⟩
  have hsum := Family.sum_update_add Op.busy s.proc p .idle
  rw [hp, Op.busy_committer, Op.busy_idle] at hsum
  -- after the commit nobody commits: `p` was the only committer
  have hidle : ∀ q, Function.update s.proc p .idle q ≠ .committer := by
    intro q hq
    by_cases hqp : q = p
    · subst hqp
      simp at hq
    · rw [Function.update_of_ne hqp] at hq
      exact hqp (hs.committer q p hq hp)
  refine ⟨List.nodup_nil, fun b => ?_, ?_, ?_, fun q q' hq hq' => ?_, fun hc' => ?_, ?_, ?_⟩
  all_goals dsimp only [endCommit] at *
  · simp only [List.not_mem_nil, false_or, false_iff, not_exists]
    intro q
    by_cases hqp : q = p
    · subst hqp
      simp
    · rw [Function.update_of_ne hqp, hs.logged_eq_nil hc q]
      simp
  · have := hs.outstanding
    have := hs.quiet hc
    omega
  · simp only [Bool.false_eq_true, false_iff, not_exists]
    exact hidle
  · exact absurd hq (hidle q)
  · cases hc'
  · exact Disk.run_commit_head _ _ _ hs.head
  · have := hs.size
    simp only [List.length_nil]
    omega

theorem inv_step {a : Action ι D} (hs : Inv s) (h : step s a = some s') : Inv s' := by
  cases a with
  | beginOp p => exact hs.beginOp h
  | write p b v => exact hs.write h
  | endOp p => exact hs.endOp h
  | commit p => exact hs.commit h

theorem inv_of_reachable {start : ℕ} {d : Disk D}
    (hs : Steps.Reachable step (init start d) s) : Inv s :=
  Steps.Reachable.inv (inv_init start d) (fun _ _ _ hi h => inv_step hi h) hs

/-- While a process is about to commit, no `begin_op` returns, no process inside an operation
can write, and any call of `log_write` panics. -/
theorem blocked_of_committer (hs : Inv s) {p : ι} (hp : s.proc p = .committer) (q : ι) :
    step s (.beginOp q) = none ∧ (∀ b v, step s (.write q b v) = none) ∧
      ∀ b, ∃ e, logWrite s.log b = .error e := by
  have hc : s.log.committing = true := hs.committing.2 ⟨p, hp⟩
  refine ⟨?_, fun b v => ?_, fun b => ?_⟩
  · cases h : step s (.beginOp q) with
    | none => rfl
    | some s' =>
      obtain ⟨-, hc', -⟩ := step_beginOp h
      simp [hc] at hc'
  · cases h : step s (.write q b v) with
    | none => rfl
    | some s' =>
      obtain ⟨ws, hq, -⟩ := step_write h
      exact absurd hq (hs.not_inOp hc q ws)
  · -- `log.outstanding` is zero, so `log_write` panics whatever the header holds
    cases hw : logWrite s.log b with
    | error e => exact ⟨e, rfl⟩
    | ok log =>
      obtain ⟨-, -, hout, -⟩ := logWrite_eq_ok.1 hw
      have := hs.quiet hc
      omega

end Inv

/-! ### What a commit writes -/

/-- **Group commit.**  In every reachable state, a commit runs only with no operation outstanding
and `log.committing` set, and then no `begin_op` returns and `log_write` panics.  The header it
writes lists each block logged by the operations that ended since the previous commit exactly
once, and nothing else: no process is inside an operation.  When those blocks lie outside the
log, the commit leaves each of them on disk with its cached contents, every other block outside
the log as it was, and the header clear. -/
theorem commit_header {start : ℕ} {d : Disk D} {s s' : Sys ι D} {p : ι}
    (hs : Steps.Reachable step (init start d) s) (h : step s (.commit p) = some s')
    (hout : ∀ b ∈ s.ended, Out s.log.start s.log.size b) :
    s.log.outstanding = 0 ∧ s.log.committing = true ∧
      (∀ q, step s (.beginOp q) = none ∧ (∀ b v, step s (.write q b v) = none) ∧
        ∀ b, ∃ e, logWrite s.log b = .error e) ∧
      (∀ q ws, s.proc q ≠ .inOp ws) ∧
      s.log.lh.Nodup ∧ (∀ b, b ∈ s.log.lh ↔ b ∈ s.ended) ∧
      s'.disk.head = [] ∧
      ∀ x, Out s.log.start s.log.size x →
        s'.disk.blk x = if x ∈ s.ended then s.cache x else s.disk.blk x := by
  have hi := inv_of_reachable hs
  obtain ⟨hp, rfl⟩ := step_commit h
  have hc : s.log.committing = true := hi.committing.2 ⟨p, hp⟩
  have hlh := hi.mem_lh_iff_ended hc
  -- the disk side is `commit_installed` for the header the commit writes
  have hinst : Installed _ _ _ s.cache _ _ :=
    commit_installed hi.head hi.nodup hi.size (fun b hb => hout b ((hlh b).1 hb))
  refine ⟨hi.quiet hc, hc, blocked_of_committer hi hp, hi.not_inOp hc, hi.nodup, hlh,
    hinst.1, fun x hx => ?_⟩
  rw [hinst.2 x hx, installed]
  simp only [hlh]

/-- `commit_header` for one process that logs block `40` and ends its operation. -/
theorem commit_header_one_write :
    ∃ s s' : Sys (Fin 1) ℕ, Steps.Reachable step (init 2 ⟨[], fun _ => 0⟩) s ∧
      step s (.commit 0) = some s' ∧ s.ended = [40] ∧
      (∀ b ∈ s.ended, Out s.log.start s.log.size b) ∧
      (s.log.outstanding = 0 ∧ s.log.committing = true ∧
        (∀ q, step s (.beginOp q) = none ∧ (∀ b v, step s (.write q b v) = none) ∧
          ∀ b, ∃ e, logWrite s.log b = .error e) ∧
        (∀ q ws, s.proc q ≠ .inOp ws) ∧
        s.log.lh.Nodup ∧ (∀ b, b ∈ s.log.lh ↔ b ∈ s.ended) ∧
        s'.disk.head = [] ∧
        ∀ x, Out s.log.start s.log.size x →
          s'.disk.blk x = if x ∈ s.ended then s.cache x else s.disk.blk x) := by
  have hrun : Steps.run step (init 2 ⟨[], fun _ => 0⟩ : Sys (Fin 1) ℕ)
      [.beginOp 0, .write 0 40 7, .endOp 0] = some _ := rfl
  have hcommit : Steps.run step (init 2 ⟨[], fun _ => 0⟩ : Sys (Fin 1) ℕ)
      ([.beginOp 0, .write 0 40 7, .endOp 0] ++ [.commit 0]) = some _ := rfl
  rw [Steps.run_append, hrun, Option.bind_some, Steps.run_singleton] at hcommit
  have hs := Steps.reachable_of_run hrun
  have hout : ∀ b ∈ [40], Out 2 30 b := by decide
  exact ⟨_, _, hs, hcommit, rfl, hout, commit_header hs hcommit hout⟩

end Xv6.Log
