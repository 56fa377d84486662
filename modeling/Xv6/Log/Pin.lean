import Xv6.Bio.Cache
import Xv6.Log.Txn

/-!
# The log's pins in the buffer cache (`log_write`, `install_trans`, `kernel/bio.c`)

`log_write` keeps a logged block's buffer in the cache with `bpin` until the commit has written
the block home: `install_trans` reads the block (`bread`), writes it (`bwrite`) and only then
calls `bunpin`.  Meanwhile any process may `bread` and `brelse` buffers, and `bget` recycles
buffers nobody refers to.

The system below has the processes of `Txn` (each also holding the sleep locks of some buffers,
and perhaps waiting for one after `bget`), the in-memory log, the buffer cache and the disk.  The
commit appears as the committer's own `bread`, `bwrite` and `brelse` calls, an `unpin` of each
header block once its buffer's contents are on disk, and `endCommit` (`log.lh.n = 0`,
`log.committing = 0`) once every header block is unpinned.  A ghost list records the blocks the
running commit has unpinned.

* `Inv`, `inv_of_reachable`: every buffer's `refcnt` is the number of its `bget` holders plus one
  if the log pins it, and every header block not yet unpinned has exactly one valid buffer;
* `pin_of_reachable`: hence `bget` never recycles a pinned buffer and returns it for its block
  without a disk read.
-/

namespace Xv6.Log.Pin

open Bio

/-- A process: its place in the group commit, the buffers whose sleep locks it holds, and the
buffer it waits to lock after `bget`. -/
structure Proc where
  op : Op
  held : List (Fin nbuf)
  wait : Option (Fin nbuf)

/-- The references process `P` holds on buffer `i`: its lock, or the `bget` it waits on. -/
def Proc.uses (P : Proc) (i : Fin nbuf) : ℕ :=
  P.held.count i + if P.wait = some i then 1 else 0

theorem Proc.uses_pos_of_mem {P : Proc} {i : Fin nbuf} (h : i ∈ P.held) : 0 < P.uses i := by
  have := List.count_pos_iff.2 h
  unfold Proc.uses
  omega

/-- `bget` adds the reference the process then waits on. -/
theorem Proc.uses_wait {P : Proc} (hw : P.wait = none) (i k : Fin nbuf) :
    { P with wait := some i }.uses k = P.uses k + if i = k then 1 else 0 := by
  simp [Proc.uses, hw]

/-- Taking the lock turns the awaited reference into a held one. -/
theorem Proc.uses_lock {P : Proc} {i : Fin nbuf} (hw : P.wait = some i) (k : Fin nbuf) :
    { P with held := i :: P.held, wait := none }.uses k = P.uses k := by
  simp [Proc.uses, hw, List.count_cons]

/-- `brelse` drops one held reference. -/
theorem Proc.uses_erase {P : Proc} {i : Fin nbuf} (hi : i ∈ P.held) (k : Fin nbuf) :
    { P with held := P.held.erase i }.uses k + (if i = k then 1 else 0) = P.uses k := by
  have hpos := List.count_pos_iff.2 hi
  by_cases hik : i = k
  · subst hik
    simp only [Proc.uses, List.count_erase_self, if_true]
    omega
  · simp [Proc.uses, List.count_erase_of_ne (Ne.symm hik), hik]

/-- The log, the buffer cache, the disk of `ROOTDEV` and the processes. -/
structure Sys (ι D : Type*) where
  log : State
  bc : Bcache D
  disk : ℕ → D
  proc : ι → Proc
  /-- Ghost: the blocks logged by operations that ended since the last commit. -/
  ended : List ℕ
  /-- Ghost: the header blocks the running commit has unpinned. -/
  unpinned : List ℕ

/-- One critical section of one process. -/
inductive Action (ι D : Type*)
  | beginOp (p : ι)
  | endOp (p : ι)
  /-- `bread`, up to `bget`'s return. -/
  | bget (p : ι) (blockno : ℕ)
  /-- `bread`, from `acquiresleep` on: lock the buffer and read it if not valid. -/
  | lock (p : ι)
  /-- Change the data of a locked buffer (an update, or `memmove` in the commit). -/
  | modify (p : ι) (i : Fin nbuf) (v : D)
  | logWrite (p : ι) (i : Fin nbuf)
  | bwrite (p : ι) (i : Fin nbuf)
  | brelse (p : ι) (i : Fin nbuf)
  /-- `install_trans`'s `bunpin(dbuf)`. -/
  | unpin (p : ι) (i : Fin nbuf)
  /-- The end of `commit()` and of `end_op`. -/
  | endCommit (p : ι)

variable {ι D : Type*}

/-- `log_write(b)` on buffer `i`: the header as `logWrite` keeps it, and `bpin` when the block is
new to the header. -/
def logWriteBuf (log : State) (c : Bcache D) (i : Fin nbuf) : Except String (State × Bcache D) :=
  match logWrite log (c.buf i).blockno with
  | .ok log' => .ok (log', if (c.buf i).blockno ∈ log.lh then c else bpin c i)
  | .error e => .error e

theorem logWriteBuf_eq_ok {log log' : State} {c c' : Bcache D} {i : Fin nbuf} :
    logWriteBuf log c i = .ok (log', c') ↔ logWrite log (c.buf i).blockno = .ok log' ∧
      c' = if (c.buf i).blockno ∈ log.lh then c else bpin c i := by
  unfold logWriteBuf
  split
  · rename_i log'' hl
    rw [hl]
    simp only [Except.ok.injEq, Prod.mk.injEq]
    exact ⟨fun ⟨h1, h2⟩ => ⟨h1, h2.symm⟩, fun ⟨h1, h2⟩ => ⟨h1, h2.symm⟩⟩
  · rename_i e hl
    rw [hl]
    simp

/-- Buffer `i` carries the log's pin: it caches a header block of `ROOTDEV` that the running
commit has not unpinned. -/
def Pinned (s : Sys ι D) (i : Fin nbuf) : Prop :=
  (s.bc.buf i).dev = rootdev ∧ (s.bc.buf i).blockno ∈ s.log.lh ∧
    (s.bc.buf i).blockno ∉ s.unpinned

instance (s : Sys ι D) (i : Fin nbuf) : Decidable (Pinned s i) :=
  inferInstanceAs (Decidable (_ ∧ _ ∧ _))

section Upd

variable [DecidableEq ι]

/-- The process `p` after `f`. -/
def Sys.upd (s : Sys ι D) (p : ι) (f : Proc → Proc) : ι → Proc :=
  Function.update s.proc p (f (s.proc p))

theorem upd_self (s : Sys ι D) (p : ι) (f : Proc → Proc) : s.upd p f p = f (s.proc p) :=
  Function.update_self ..

theorem upd_ne (s : Sys ι D) {p q : ι} (f : Proc → Proc) (h : q ≠ p) : s.upd p f q = s.proc q :=
  Function.update_of_ne h ..

theorem upd_op (s : Sys ι D) (p q : ι) (o : Op) :
    (s.upd p ({ · with op := o }) q).held = (s.proc q).held ∧
      (s.upd p ({ · with op := o }) q).wait = (s.proc q).wait := by
  by_cases hq : q = p
  · subst hq
    simp [upd_self]
  · simp [upd_ne _ _ hq]

theorem upd_held (s : Sys ι D) (p q : ι) (f : Proc → Proc) (hf : (f (s.proc p)).held = (s.proc p).held) :
    (s.upd p f q).held = (s.proc q).held := by
  by_cases hq : q = p
  · subst hq
    rw [upd_self, hf]
  · rw [upd_ne _ _ hq]

theorem sum_uses_upd [Fintype ι] (s : Sys ι D) (p : ι) (f : Proc → Proc) (k : Fin nbuf) :
    (∑ q, (s.upd p f q).uses k) + (s.proc p).uses k =
      (∑ q, (s.proc q).uses k) + (f (s.proc p)).uses k :=
  Family.sum_update_add (fun P => P.uses k) s.proc p (f (s.proc p))

end Upd

variable [DecidableEq ι] [Fintype ι] [DecidableEq D] in
/-- One step; `none` when the action is not enabled, would sleep or would panic. -/
def step (s : Sys ι D) : Action ι D → Option (Sys ι D)
  | .beginOp p =>
    match (s.proc p).op, beginOp s.log with
    | .idle, some log => some { s with log := log, proc := s.upd p ({ · with op := .inOp [] }) }
    | _, _ => none
  | .endOp p =>
    match (s.proc p).op, endOp s.log with
    | .inOp ws, .ok (log, doCommit) =>
      some { s with
        log := log
        proc := s.upd p ({ · with op := if doCommit then .committer else .idle })
        ended := s.ended ++ ws }
    | _, _ => none
  | .bget p blockno =>
    match (s.proc p).wait, Bio.bget s.bc rootdev blockno with
    | none, .ok (bc, i) => some { s with bc := bc, proc := s.upd p ({ · with wait := some i }) }
    | _, _ => none
  | .lock p =>
    match (s.proc p).wait with
    | some i =>
      if ∀ q, i ∉ (s.proc q).held then
        some { s with
          bc := bread s.bc s.disk i
          proc := s.upd p fun P => { P with held := i :: P.held, wait := none } }
      else none
    | none => none
  | .modify p i v =>
    if i ∈ (s.proc p).held then some { s with bc := s.bc.set i { s.bc.buf i with data := v } }
    else none
  | .logWrite p i =>
    match (s.proc p).op with
    | .inOp ws =>
      if i ∈ (s.proc p).held then
        match logWriteBuf s.log s.bc i with
        | .ok (log, bc) =>
          some { s with
            log := log
            bc := bc
            proc := s.upd p ({ · with op := .inOp (if (s.bc.buf i).blockno ∈ ws then ws
              else ws ++ [(s.bc.buf i).blockno]) }) }
        | .error _ => none
      else none
    | _ => none
  | .bwrite p i =>
    if i ∈ (s.proc p).held then
      some { s with disk := Function.update s.disk (s.bc.buf i).blockno (s.bc.buf i).data }
    else none
  | .brelse p i =>
    if i ∈ (s.proc p).held then
      some { s with bc := Bio.brelse s.bc i, proc := s.upd p ({ · with held := (s.proc p).held.erase i }) }
    else none
  | .unpin p i =>
    if (s.proc p).op = .committer ∧ i ∈ (s.proc p).held ∧ Pinned s i ∧
        s.disk (s.bc.buf i).blockno = (s.bc.buf i).data then
      some { s with bc := bunpin s.bc i, unpinned := (s.bc.buf i).blockno :: s.unpinned }
    else none
  | .endCommit p =>
    if (s.proc p).op = .committer ∧ ∀ b ∈ s.log.lh, b ∈ s.unpinned then
      some { s with
        log := endCommit s.log
        proc := s.upd p ({ · with op := .idle })
        ended := []
        unpinned := [] }
    else none

/-- After `binit` and `initlog`: the cache empty, the disk recovered. -/
def init (start : ℕ) (d : Disk D) (data : D) : Sys ι D where
  log := { start := start, size := nlog, outstanding := 0, committing := false, lh := [] }
  bc := binit data
  disk := (recover start d).blk
  proc := fun _ => { op := .idle, held := [], wait := none }
  ended := []
  unpinned := []

/-! ### The invariant -/

section Inv

variable [Fintype ι] {s s' : Sys ι D}

/-- The invariant of the buffer cache under the log. -/
structure Inv (s : Sys ι D) : Prop where
  /-- `refcnt` counts the `bget` holders and the log's pin. -/
  refcnt : ∀ i, (s.bc.buf i).refcnt = (∑ p, (s.proc p).uses i) + if Pinned s i then 1 else 0
  /-- A buffer in use caches a block of `ROOTDEV`. -/
  dev_used : ∀ p i, 0 < (s.proc p).uses i → (s.bc.buf i).dev = rootdev
  /-- A locked buffer holds the block's data. -/
  valid_held : ∀ p i, i ∈ (s.proc p).held → (s.bc.buf i).valid = true
  /-- Every header block not yet unpinned has a valid buffer. -/
  cached : ∀ b ∈ s.log.lh, b ∉ s.unpinned →
    ∃ i, (s.bc.buf i).dev = rootdev ∧ (s.bc.buf i).blockno = b ∧ (s.bc.buf i).valid = true
  /-- No two buffers cache one block. -/
  unique : ∀ i j, (s.bc.buf i).dev ≠ 0 → (s.bc.buf i).dev = (s.bc.buf j).dev →
    (s.bc.buf i).blockno = (s.bc.buf j).blockno → i = j
  /-- The header lists each block once. -/
  nodup : s.log.lh.Nodup
  /-- The commit unpins only header blocks. -/
  unpinned : ∀ b ∈ s.unpinned, b ∈ s.log.lh

omit [Fintype ι] in
theorem pinned_congr {i : Fin nbuf} (hdev : (s'.bc.buf i).dev = (s.bc.buf i).dev)
    (hblk : (s'.bc.buf i).blockno = (s.bc.buf i).blockno) (hlh : s'.log.lh = s.log.lh)
    (hun : s'.unpinned = s.unpinned) : Pinned s' i ↔ Pinned s i := by
  unfold Pinned
  rw [hdev, hblk, hlh, hun]

/-- A buffer with no references carries no pin and is locked by nobody. -/
theorem Inv.free (hs : Inv s) {i : Fin nbuf} (h0 : (s.bc.buf i).refcnt = 0) :
    ¬ Pinned s i ∧ ∀ p, (s.proc p).uses i = 0 := by
  have h := hs.refcnt i
  refine ⟨fun hp => by simp [hp] at h; omega, fun p => ?_⟩
  have hle : (s.proc p).uses i ≤ ∑ q, (s.proc q).uses i :=
    Finset.single_le_sum (f := fun q => (s.proc q).uses i) (fun _ _ => Nat.zero_le _)
      (Finset.mem_univ p)
  omega

/-- Only one buffer caches a given block of `ROOTDEV`. -/
theorem Inv.blockno_ne (hs : Inv s) {i k : Fin nbuf} (hi : (s.bc.buf i).dev = rootdev)
    (hk : (s.bc.buf k).dev = rootdev) (hki : k ≠ i) :
    (s.bc.buf k).blockno ≠ (s.bc.buf i).blockno := fun h =>
  hki (hs.unique k i (by rw [hk]; decide) (hk.trans hi.symm) h)

/-- Which buffers are distinct depends only on the blocks they cache. -/
theorem Inv.unique_of_blocks (hs : Inv s)
    (hbuf : ∀ i, (s'.bc.buf i).dev = (s.bc.buf i).dev ∧
      (s'.bc.buf i).blockno = (s.bc.buf i).blockno) (i j : Fin nbuf)
    (hi : (s'.bc.buf i).dev ≠ 0) (hij : (s'.bc.buf i).dev = (s'.bc.buf j).dev)
    (hb : (s'.bc.buf i).blockno = (s'.bc.buf j).blockno) : i = j := by
  obtain ⟨hdi, hbi⟩ := hbuf i
  obtain ⟨hdj, hbj⟩ := hbuf j
  rw [hdi, hdj] at hij
  rw [hbi, hbj] at hb
  exact hs.unique i j (hdi ▸ hi) hij hb

/-- Steps that keep which block each buffer caches, the header and the unpinned blocks keep
the invariant, once they keep the reference counts, the device of what is used, and the
validity of what is locked. -/
theorem Inv.of_same_blocks (hs : Inv s)
    (hbuf : ∀ i, (s'.bc.buf i).dev = (s.bc.buf i).dev ∧
      (s'.bc.buf i).blockno = (s.bc.buf i).blockno ∧
      ((s.bc.buf i).valid = true → (s'.bc.buf i).valid = true))
    (hlh : s'.log.lh = s.log.lh) (hun : s'.unpinned = s.unpinned)
    (hrefcnt : ∀ i, (s'.bc.buf i).refcnt = (∑ p, (s'.proc p).uses i) + if Pinned s i then 1 else 0)
    (hdev : ∀ p i, 0 < (s'.proc p).uses i → (s'.bc.buf i).dev = rootdev)
    (hvalid : ∀ p i, i ∈ (s'.proc p).held → (s'.bc.buf i).valid = true) : Inv s' := by
  refine ⟨fun i => ?_, hdev, hvalid, fun b hb hun' => ?_,
    hs.unique_of_blocks fun i => ⟨(hbuf i).1, (hbuf i).2.1⟩, hlh ▸ hs.nodup, fun b hb => ?_⟩
  · simp only [pinned_congr (hbuf i).1 (hbuf i).2.1 hlh hun]
    exact hrefcnt i
  · rw [hlh] at hb
    rw [hun] at hun'
    obtain ⟨i, h1, h2, h3⟩ := hs.cached b hb hun'
    obtain ⟨hd, hbl, hv⟩ := hbuf i
    exact ⟨i, hd ▸ h1, hbl ▸ h2, hv h3⟩
  · rw [hun] at hb
    exact hlh ▸ hs.unpinned b hb

/-- Steps that change neither references, pins nor locks keep the invariant. -/
theorem Inv.congr (hs : Inv s)
    (hbuf : ∀ i, (s'.bc.buf i).dev = (s.bc.buf i).dev ∧
      (s'.bc.buf i).blockno = (s.bc.buf i).blockno ∧
      (s'.bc.buf i).refcnt = (s.bc.buf i).refcnt ∧ (s'.bc.buf i).valid = (s.bc.buf i).valid)
    (hlh : s'.log.lh = s.log.lh) (hun : s'.unpinned = s.unpinned)
    (hheld : ∀ p, (s'.proc p).held = (s.proc p).held)
    (hwait : ∀ p, (s'.proc p).wait = (s.proc p).wait) : Inv s' := by
  have huses : ∀ p i, (s'.proc p).uses i = (s.proc p).uses i := fun p i => by
    simp [Proc.uses, hheld, hwait]
  refine hs.of_same_blocks (fun i => ⟨(hbuf i).1, (hbuf i).2.1, fun h => (hbuf i).2.2.2 ▸ h⟩)
    hlh hun (fun i => ?_) (fun p i hp => ?_) (fun p i hp => ?_)
  · simp only [(hbuf i).2.2.1, huses]
    exact hs.refcnt i
  · rw [huses] at hp
    rw [(hbuf i).1]
    exact hs.dev_used p i hp
  · rw [hheld] at hp
    rw [(hbuf i).2.2.2]
    exact hs.valid_held p i hp

/-- Steps that move the pin of buffer `i` alone keep the invariant, once they change its
`refcnt` by as much as its pin. -/
theorem Inv.of_pin_moved (hs : Inv s) {i : Fin nbuf} (hdi : (s.bc.buf i).dev = rootdev)
    (hvi : (s.bc.buf i).valid = true)
    (hbuf : ∀ k, (s'.bc.buf k).dev = (s.bc.buf k).dev ∧
      (s'.bc.buf k).blockno = (s.bc.buf k).blockno ∧ (s'.bc.buf k).valid = (s.bc.buf k).valid)
    (hheld : ∀ p, (s'.proc p).held = (s.proc p).held)
    (hwait : ∀ p, (s'.proc p).wait = (s.proc p).wait)
    (hmem : ∀ b, b ≠ (s.bc.buf i).blockno →
      (b ∈ s'.log.lh ∧ b ∉ s'.unpinned ↔ b ∈ s.log.lh ∧ b ∉ s.unpinned))
    (hrefk : ∀ k, k ≠ i → (s'.bc.buf k).refcnt = (s.bc.buf k).refcnt)
    (hrefi : (s'.bc.buf i).refcnt + (if Pinned s i then 1 else 0) =
      (s.bc.buf i).refcnt + if Pinned s' i then 1 else 0)
    (hnodup : s'.log.lh.Nodup) (hun : ∀ b ∈ s'.unpinned, b ∈ s'.log.lh) : Inv s' := by
  have huses : ∀ p k, (s'.proc p).uses k = (s.proc p).uses k := fun p k => by
    simp [Proc.uses, hheld, hwait]
  refine ⟨fun k => ?_, fun p k hp => ?_, fun p k hp => ?_, fun b hb hun' => ?_,
    hs.unique_of_blocks fun k => ⟨(hbuf k).1, (hbuf k).2.1⟩, hnodup, hun⟩
  · simp only [huses]
    rcases eq_or_ne k i with rfl | hki
    · have := hs.refcnt k
      omega
    · -- another buffer caches another block, whose pin has not moved
      have hpin : Pinned s' k ↔ Pinned s k := by
        unfold Pinned
        rw [(hbuf k).1, (hbuf k).2.1]
        exact and_congr_right fun hd => hmem _ (hs.blockno_ne hdi hd hki)
      simp only [hrefk k hki, hpin]
      exact hs.refcnt k
  · rw [huses] at hp
    rw [(hbuf k).1]
    exact hs.dev_used p k hp
  · rw [hheld] at hp
    rw [(hbuf k).2.2]
    exact hs.valid_held p k hp
  · by_cases hbi : b = (s.bc.buf i).blockno
    · subst hbi
      exact ⟨i, (hbuf i).1.trans hdi, (hbuf i).2.1, (hbuf i).2.2.trans hvi⟩
    · obtain ⟨hb', hun''⟩ := (hmem b hbi).1 ⟨hb, hun'⟩
      obtain ⟨k, h1, h2, h3⟩ := hs.cached b hb' hun''
      obtain ⟨hd, hbl, hv⟩ := hbuf k
      exact ⟨k, hd ▸ h1, hbl ▸ h2, hv ▸ h3⟩

theorem inv_init (start : ℕ) (d : Disk D) (data : D) : Inv (init start d data : Sys ι D) where
  refcnt := fun i => by simp [init, binit, Proc.uses, Pinned, rootdev]
  dev_used := fun p i h => by simp [init, Proc.uses] at h
  valid_held := fun p i h => by simp [init] at h
  cached := fun b hb => by simp [init] at hb
  unique := fun i j h => by simp [init, binit] at h
  nodup := List.nodup_nil
  unpinned := fun b hb => by simp [init] at hb

end Inv

/-! ### One lemma per action -/

section Step

variable [DecidableEq ι] [Fintype ι] [DecidableEq D] {s s' : Sys ι D}

theorem Inv.beginOp {p : ι} (hs : Inv s) (h : step s (.beginOp p) = some s') : Inv s' := by
  simp only [step] at h
  split at h
  · rename_i log _ hlog
    cases h
    obtain ⟨-, -, rfl⟩ := beginOp_eq_some.1 hlog
    exact hs.congr (fun _ => ⟨rfl, rfl, rfl, rfl⟩) rfl rfl (fun q => (upd_op s p q _).1)
      (fun q => (upd_op s p q _).2)
  · cases h

theorem Inv.endOp {p : ι} (hs : Inv s) (h : step s (.endOp p) = some s') : Inv s' := by
  simp only [step] at h
  split at h
  · rename_i log _ _ _ hlog
    cases h
    obtain ⟨-, -, rfl⟩ := endOp_eq_ok.1 hlog
    exact hs.congr (fun _ => ⟨rfl, rfl, rfl, rfl⟩) rfl rfl (fun q => (upd_op s p q _).1)
      (fun q => (upd_op s p q _).2)
  · cases h

theorem Inv.bget {p : ι} {blockno : ℕ} (hs : Inv s) (h : step s (.bget p blockno) = some s') :
    Inv s' := by
  simp only [step] at h
  split at h
  · rename_i bc i hw hb
    cases h
    have hsum : ∀ k, (∑ q, (s.upd p ({ · with wait := some i }) q).uses k) =
        (∑ q, (s.proc q).uses k) + if i = k then 1 else 0 := fun k => by
      have := sum_uses_upd s p ({ · with wait := some i }) k
      rw [Proc.uses_wait hw] at this
      omega
    have huse : ∀ q k, k ≠ i → (s.upd p ({ · with wait := some i }) q).uses k = (s.proc q).uses k := by
      intro q k hk
      by_cases hqp : q = p
      · subst hqp
        rw [upd_self, Proc.uses_wait hw, if_neg (Ne.symm hk), Nat.add_zero]
      · rw [upd_ne _ _ hqp]
    have hheld : ∀ q, (s.upd p ({ · with wait := some i }) q).held = (s.proc q).held :=
      fun q => upd_held s p q _ rfl
    by_cases hc : ∃ j, s.bc.Caches rootdev blockno j = true
    · -- the block is cached: one more reference to its buffer
      obtain ⟨hi, rfl⟩ := bget_found hb hc
      have hdi : (s.bc.buf i).dev = rootdev := by
        simp only [Bcache.Caches, Bool.and_eq_true, beq_iff_eq] at hi
        exact hi.1
      have hbuf : ∀ k, ((s.bc.set i { s.bc.buf i with refcnt := (s.bc.buf i).refcnt + 1 }).buf k).dev = (s.bc.buf k).dev ∧
          ((s.bc.set i { s.bc.buf i with refcnt := (s.bc.buf i).refcnt + 1 }).buf k).blockno = (s.bc.buf k).blockno ∧
          ((s.bc.set i { s.bc.buf i with refcnt := (s.bc.buf i).refcnt + 1 }).buf k).valid = (s.bc.buf k).valid := by
        intro k
        rcases eq_or_ne k i with rfl | hk <;> simp [*]
      refine hs.of_same_blocks (fun k => ⟨(hbuf k).1, (hbuf k).2.1, fun h => (hbuf k).2.2 ▸ h⟩)
        rfl rfl (fun k => ?_) (fun q k hq => ?_) (fun q k hq => ?_)
      · rw [hsum]
        rcases eq_or_ne k i with rfl | hk
        · simp only [Bcache.set_buf_self, if_true, hs.refcnt k]
          omega
        · simp [hk, Ne.symm hk, hs.refcnt k]
      · rw [(hbuf k).1]
        rcases eq_or_ne k i with rfl | hk
        · exact hdi
        · rw [huse q k hk] at hq
          exact hs.dev_used q k hq
      · rw [(hbuf k).2.2]
        rw [hheld] at hq
        exact hs.valid_held q k hq
    · -- no buffer caches the block: recycle buffer `i`, which nobody refers to
      have hc' : ∀ j, s.bc.Caches rootdev blockno j = false := by simpa using hc
      obtain ⟨h0, rfl⟩ := bget_recycle hb hc'
      obtain ⟨hnp, hfree⟩ := hs.free h0
      have hnot : ∀ k, (s.bc.buf k).dev = rootdev → (s.bc.buf k).blockno ≠ blockno :=
        fun k hd hbk => by simpa [Bcache.Caches, hd, hbk] using hc' k
      have hnew : ¬ (blockno ∈ s.log.lh ∧ blockno ∉ s.unpinned) := by
        rintro ⟨h1, h2⟩
        obtain ⟨k, hd, hbk, -⟩ := hs.cached blockno h1 h2
        exact hnot k hd hbk
      refine ⟨fun k => ?_, fun q k hq => ?_, fun q k hq => ?_, fun b hb hun => ?_,
        fun k l hk hkl hb => ?_, hs.nodup, hs.unpinned⟩
      · rw [hsum]
        rcases eq_or_ne k i with rfl | hk
        · have hz : ∑ q, (s.proc q).uses k = 0 := Finset.sum_eq_zero fun q _ => hfree q
          simp only [Pinned, Bcache.set_buf_self, if_true, hz]
          simp [hnew]
        · have hk' := hs.refcnt k
          simp only [Pinned] at hk' ⊢
          simp only [Bcache.set_buf_ne _ _ hk, if_neg (Ne.symm hk), Nat.add_zero]
          exact hk'
      · rcases eq_or_ne k i with rfl | hk
        · simp
        · rw [huse q k hk] at hq
          simp only [Bcache.set_buf_ne _ _ hk]
          exact hs.dev_used q k hq
      · rw [hheld] at hq
        have hk : k ≠ i := by
          rintro rfl
          have := Proc.uses_pos_of_mem hq
          rw [hfree q] at this
          exact Nat.lt_irrefl 0 this
        simp only [Bcache.set_buf_ne _ _ hk]
        exact hs.valid_held q k hq
      · obtain ⟨k, hd, hbk, hv⟩ := hs.cached b hb hun
        have hk : k ≠ i := by
          rintro rfl
          exact hnp ⟨hd, hbk ▸ hb, hbk ▸ hun⟩
        exact ⟨k, by simp only [Bcache.set_buf_ne _ _ hk]; exact ⟨hd, hbk, hv⟩⟩
      · rcases eq_or_ne k i with rfl | hki <;> rcases eq_or_ne l k with rfl | hlk
        · rfl
        · simp only [Bcache.set_buf_self, Bcache.set_buf_ne _ _ hlk] at hkl hb
          exact absurd hb.symm (hnot l hkl.symm)
        · rfl
        · rcases eq_or_ne l i with rfl | hli
          · simp only [Bcache.set_buf_self, Bcache.set_buf_ne _ _ hki] at hkl hb
            exact absurd hb (hnot k hkl)
          · simp only [Bcache.set_buf_ne _ _ hki, Bcache.set_buf_ne _ _ hli] at hk hkl hb
            exact hs.unique k l hk hkl hb
  · cases h

theorem Inv.lock {p : ι} (hs : Inv s) (h : step s (.lock p) = some s') : Inv s' := by
  simp only [step] at h
  split at h
  · rename_i i hw
    split_ifs at h
    cases h
    have huses : ∀ q k,
        (s.upd p (fun P => { P with held := i :: P.held, wait := none }) q).uses k =
          (s.proc q).uses k := by
      intro q k
      by_cases hqp : q = p
      · subst hqp
        rw [upd_self, Proc.uses_lock hw]
      · rw [upd_ne _ _ hqp]
    have hbuf := bread_buf s.bc s.disk i
    refine hs.of_same_blocks (fun k => ⟨(hbuf k).1, (hbuf k).2.1, fun h => by simp [hbuf, h]⟩)
      rfl rfl (fun k => ?_) (fun q k hq => ?_) (fun q k hq => ?_)
    · simp only [(hbuf k).2.2.1, huses]
      exact hs.refcnt k
    · rw [huses] at hq
      rw [(hbuf k).1]
      exact hs.dev_used q k hq
    · -- the newly locked buffer has just been read, the others were valid already
      rw [(hbuf k).2.2.2]
      dsimp only at hq
      by_cases hqp : q = p
      · subst hqp
        rw [upd_self] at hq
        rcases List.mem_cons.1 hq with rfl | hq
        · simp
        · simp [hs.valid_held q k hq]
      · rw [upd_ne _ _ hqp] at hq
        simp [hs.valid_held q k hq]
  · cases h

theorem Inv.modify {p : ι} {i : Fin nbuf} {v : D} (hs : Inv s)
    (h : step s (.modify p i v) = some s') : Inv s' := by
  simp only [step] at h
  split_ifs at h
  cases h
  refine hs.congr (fun k => ?_) rfl rfl (fun _ => rfl) (fun _ => rfl)
  rcases eq_or_ne k i with rfl | hk <;> simp [*]

theorem Inv.bwrite {p : ι} {i : Fin nbuf} (hs : Inv s) (h : step s (.bwrite p i) = some s') :
    Inv s' := by
  simp only [step] at h
  split_ifs at h
  cases h
  exact hs.congr (fun _ => ⟨rfl, rfl, rfl, rfl⟩) rfl rfl (fun _ => rfl) (fun _ => rfl)

theorem Inv.brelse {p : ι} {i : Fin nbuf} (hs : Inv s) (h : step s (.brelse p i) = some s') :
    Inv s' := by
  simp only [step] at h
  split_ifs at h with hi
  cases h
  have hsum : ∀ k, (∑ q, (s.upd p ({ · with held := (s.proc p).held.erase i }) q).uses k) +
      (if i = k then 1 else 0) = ∑ q, (s.proc q).uses k := fun k => by
    have := sum_uses_upd s p ({ · with held := (s.proc p).held.erase i }) k
    have := Proc.uses_erase hi k
    omega
  have hle : ∀ q k, (s.upd p ({ · with held := (s.proc p).held.erase i }) q).uses k ≤
      (s.proc q).uses k := by
    intro q k
    by_cases hqp : q = p
    · subst hqp
      have := Proc.uses_erase hi k
      rw [upd_self]
      omega
    · rw [upd_ne _ _ hqp]
  have hbuf : ∀ k, ((Bio.brelse s.bc i).buf k).dev = (s.bc.buf k).dev ∧
      ((Bio.brelse s.bc i).buf k).blockno = (s.bc.buf k).blockno ∧
      ((Bio.brelse s.bc i).buf k).valid = (s.bc.buf k).valid := by
    intro k
    rw [brelse_buf]
    rcases eq_or_ne k i with rfl | hk <;> simp [*]
  refine hs.of_same_blocks (fun k => ⟨(hbuf k).1, (hbuf k).2.1, fun h => (hbuf k).2.2 ▸ h⟩)
    rfl rfl (fun k => ?_) (fun q k hq => ?_) (fun q k hq => ?_)
  · have hk := hsum k
    rw [brelse_buf]
    rcases eq_or_ne k i with rfl | hki
    · -- the dropped reference is one of those `refcnt` counted
      have hpos : 0 < ∑ q, (s.proc q).uses k := by
        have := Finset.single_le_sum (f := fun q => (s.proc q).uses k) (fun _ _ => Nat.zero_le _)
          (Finset.mem_univ p)
        have := Proc.uses_pos_of_mem hi
        omega
      simp only [Bcache.set_buf_self, if_true, hs.refcnt k] at hk ⊢
      omega
    · simp only [Bcache.set_buf_ne _ _ hki, if_neg (Ne.symm hki), Nat.add_zero] at hk ⊢
      rw [hk]
      exact hs.refcnt k
  · rw [(hbuf k).1]
    exact hs.dev_used q k (Nat.lt_of_lt_of_le hq (hle q k))
  · rw [(hbuf k).2.2]
    dsimp only at hq
    by_cases hqp : q = p
    · subst hqp
      rw [upd_self] at hq
      exact hs.valid_held q k (List.mem_of_mem_erase hq)
    · rw [upd_ne _ _ hqp] at hq
      exact hs.valid_held q k hq

theorem Inv.logWrite {p : ι} {i : Fin nbuf} (hs : Inv s)
    (h : step s (.logWrite p i) = some s') : Inv s' := by
  simp only [step] at h
  split at h
  · by_cases hheld : i ∈ (s.proc p).held
    swap
    · rw [if_neg hheld] at h
      cases h
    rw [if_pos hheld] at h
    split at h
    · rename_i log bc hlw
      cases h
      obtain ⟨hl, rfl⟩ := logWriteBuf_eq_ok.1 hlw
      obtain ⟨-, -, -, rfl⟩ := logWrite_eq_ok.1 hl
      by_cases hb : (s.bc.buf i).blockno ∈ s.log.lh
      · -- absorbed: the header lists the block, and the buffer carries its pin already
        rw [if_pos hb, if_pos hb]
        exact hs.congr (fun _ => ⟨rfl, rfl, rfl, rfl⟩) rfl rfl (fun q => (upd_op s p q _).1)
          (fun q => (upd_op s p q _).2)
      · -- a new block: `bpin` adds the log's reference
        rw [if_neg hb, if_neg hb]
        have hdi := hs.dev_used p i (Proc.uses_pos_of_mem hheld)
        have hun : (s.bc.buf i).blockno ∉ s.unpinned := fun h => hb (hs.unpinned _ h)
        refine hs.of_pin_moved hdi (hs.valid_held p i hheld) (fun k => ?_)
          (fun q => (upd_op s p q _).1) (fun q => (upd_op s p q _).2) (fun b hbi => ?_)
          (fun k hk => ?_) ?_ ?_ ?_
        · unfold bpin
          rcases eq_or_ne k i with rfl | hk <;> simp [*]
        · simp [hbi]
        · simp [bpin, hk]
        · simp [Pinned, bpin, hb, hdi, hun]
        · refine List.nodup_append.2 ⟨hs.nodup, List.nodup_singleton _, fun a ha b hb' => ?_⟩
          rw [List.mem_singleton] at hb'
          intro hab
          subst hb' hab
          exact hb ha
        · exact fun b hb' => List.mem_append_left _ (hs.unpinned b hb')
    · cases h
  · cases h

theorem Inv.unpin {p : ι} {i : Fin nbuf} (hs : Inv s) (h : step s (.unpin p i) = some s') :
    Inv s' := by
  simp only [step] at h
  split_ifs at h with hc
  obtain ⟨-, hheld, hpin, -⟩ := hc
  cases h
  have hpos := hs.refcnt i
  rw [if_pos hpin] at hpos
  obtain ⟨hdi, hlh, hun⟩ := hpin
  refine hs.of_pin_moved hdi (hs.valid_held p i hheld) (fun k => ?_) (fun _ => rfl) (fun _ => rfl)
    (fun b hbi => ?_) (fun k hk => ?_) ?_ hs.nodup ?_
  · unfold bunpin
    rcases eq_or_ne k i with rfl | hk <;> simp [*]
  · simp [hbi]
  · simp [bunpin, hk]
  · simp only [Pinned, bunpin, Bcache.set_buf_self, hdi, hlh, hun, List.mem_cons, true_or,
      not_true, and_false, not_false_eq_true, and_self, if_true, if_false]
    omega
  · intro b hb
    rcases List.mem_cons.1 hb with rfl | hb
    · exact hlh
    · exact hs.unpinned b hb

theorem Inv.endCommit {p : ι} (hs : Inv s) (h : step s (.endCommit p) = some s') : Inv s' := by
  simp only [step] at h
  split_ifs at h with hc
  obtain ⟨-, hall⟩ := hc
  cases h
  -- every header block has been unpinned, so no buffer carries a pin before or after
  have hnp : ∀ k, ¬ Pinned s k := fun k hk => hk.2.2 (hall _ hk.2.1)
  have huses : ∀ q k, (s.upd p ({ · with op := .idle }) q).uses k = (s.proc q).uses k :=
    fun q k => by simp [Proc.uses, (upd_op s p q _).1, (upd_op s p q _).2]
  refine ⟨fun k => ?_, fun q k hq => ?_, fun q k hq => ?_, fun b hb => ?_, hs.unique,
    List.nodup_nil, fun b hb => ?_⟩
  · have := hs.refcnt k
    simp only [hnp, if_false] at this
    simp [Pinned, Log.endCommit, huses, this]
  · dsimp only at hq
    rw [huses] at hq
    exact hs.dev_used q k hq
  · dsimp only at hq
    rw [(upd_op s p q _).1] at hq
    exact hs.valid_held q k hq
  · simp [Log.endCommit] at hb
  · simp at hb

theorem inv_step {s s' : Sys ι D} {a : Action ι D} (hs : Inv s) (h : step s a = some s') :
    Inv s' := by
  cases a with
  | beginOp p => exact hs.beginOp h
  | endOp p => exact hs.endOp h
  | bget p blockno => exact hs.bget h
  | lock p => exact hs.lock h
  | modify p i v => exact hs.modify h
  | logWrite p i => exact hs.logWrite h
  | bwrite p i => exact hs.bwrite h
  | brelse p i => exact hs.brelse h
  | unpin p i => exact hs.unpin h
  | endCommit p => exact hs.endCommit h

theorem inv_of_reachable {start : ℕ} {d : Disk D} {data : D} {s : Sys ι D}
    (hs : Steps.Reachable step (init start d data) s) : Inv s :=
  Steps.Reachable.inv (inv_init start d data) (fun _ _ _ hi h => inv_step hi h) hs

/-! ### What the pins guarantee -/

omit [DecidableEq ι] [DecidableEq D] in
/-- A pinned buffer has one reference besides its `bget` holders. -/
theorem Inv.refcnt_pinned (hs : Inv s) {i : Fin nbuf} (hp : Pinned s i) :
    (s.bc.buf i).refcnt = (∑ p, (s.proc p).uses i) + 1 := by
  rw [hs.refcnt i, if_pos hp]

/-- `bget` never recycles a pinned buffer. -/
theorem Inv.bget_keeps_pinned (hs : Inv s) {i : Fin nbuf} (hp : Pinned s i) {p : ι}
    {blockno : ℕ} (h : step s (.bget p blockno) = some s') :
    (s'.bc.buf i).dev = (s.bc.buf i).dev ∧ (s'.bc.buf i).blockno = (s.bc.buf i).blockno ∧
      (s'.bc.buf i).valid = (s.bc.buf i).valid ∧ (s'.bc.buf i).data = (s.bc.buf i).data := by
  simp only [step] at h
  split at h
  · rename_i bc j _ hb
    cases h
    exact bget_keeps hb (by rw [hs.refcnt_pinned hp]; omega)
  · cases h

/-- `bget` of a pinned block returns its pinned buffer. -/
theorem Inv.bget_pinned (hs : Inv s) {i : Fin nbuf} (hp : Pinned s i) {p : ι}
    (h : step s (.bget p (s.bc.buf i).blockno) = some s') : (s'.proc p).wait = some i := by
  simp only [step] at h
  split at h
  · rename_i bc j _ hb
    cases h
    have hc : s.bc.Caches rootdev (s.bc.buf i).blockno i = true := by
      simp [Bcache.Caches, hp.1]
    obtain ⟨hj, -⟩ := bget_found hb ⟨i, hc⟩
    simp only [Bcache.Caches, Bool.and_eq_true, beq_iff_eq] at hj
    obtain rfl : j = i := hs.unique j i (by rw [hj.1]; decide) (hj.1.trans hp.1.symm) hj.2
    simp [upd_self]
  · cases h

/-- Locking a valid buffer reads nothing from disk. -/
theorem lock_valid {p : ι} {i : Fin nbuf} (hw : (s.proc p).wait = some i)
    (hv : (s.bc.buf i).valid = true) (h : step s (.lock p) = some s') :
    s'.bc.buf i = s.bc.buf i := by
  simp only [step, hw] at h
  split_ifs at h
  cases h
  simp only [bread, hv, if_true]

/-- The log's pins over every run: the header lists distinct blocks, and each one the running
commit has not unpinned yet has exactly one buffer, valid, whose `refcnt` is its `bget` holders
plus the log's pin.  So `bget` never recycles that buffer and returns it for its block, where
`bread` reads nothing from disk: `write_log` copies the cached contents. -/
theorem pin_of_reachable {start : ℕ} {d : Disk D} {data : D}
    (hs : Steps.Reachable step (init start d data) s) :
    s.log.lh.Nodup ∧
      ∀ b ∈ s.log.lh, b ∉ s.unpinned →
        ∃ i, (s.bc.buf i).dev = rootdev ∧ (s.bc.buf i).blockno = b ∧
          (s.bc.buf i).valid = true ∧
          (∀ j, (s.bc.buf j).dev = rootdev → (s.bc.buf j).blockno = b → j = i) ∧
          (s.bc.buf i).refcnt = (∑ p, (s.proc p).uses i) + 1 ∧
          (∀ p blockno s', step s (.bget p blockno) = some s' →
            (s'.bc.buf i).dev = rootdev ∧ (s'.bc.buf i).blockno = b ∧
              (s'.bc.buf i).valid = true ∧ (s'.bc.buf i).data = (s.bc.buf i).data) ∧
          (∀ p s', step s (.bget p b) = some s' → (s'.proc p).wait = some i) ∧
          (∀ p s', (s.proc p).wait = some i → step s (.lock p) = some s' →
            s'.bc.buf i = s.bc.buf i) := by
  have hi := inv_of_reachable hs
  refine ⟨hi.nodup, fun b hb hun => ?_⟩
  obtain ⟨i, hd, rfl, hv⟩ := hi.cached b hb hun
  have hp : Pinned s i := ⟨hd, hb, hun⟩
  refine ⟨i, hd, rfl, hv, fun j hdj hbj => ?_, hi.refcnt_pinned hp, fun p blockno s' h => ?_,
    fun p s' h => hi.bget_pinned hp h, fun p s' hw h => lock_valid hw hv h⟩
  · exact hi.unique j i (by rw [hdj]; decide) (hdj.trans hd.symm) hbj
  · obtain ⟨h1, h2, h3, h4⟩ := hi.bget_keeps_pinned hp h
    exact ⟨h1.trans hd, h2, h3.trans hv, h4⟩

end Step

/-- One process reads block `40` into buffer `0`, changes it, logs it and releases it: the buffer
keeps the log's pin. -/
theorem pin_after_brelse :
    ∃ s : Sys (Fin 1) ℕ, Steps.Reachable step (init 2 ⟨[], fun _ => 0⟩ 0) s ∧
      s.log.lh = [40] ∧ (s.proc 0).held = [] ∧ (s.bc.buf 0).refcnt = 1 ∧
      (s.log.lh.Nodup ∧
        ∀ b ∈ s.log.lh, b ∉ s.unpinned →
          ∃ i, (s.bc.buf i).dev = rootdev ∧ (s.bc.buf i).blockno = b ∧
            (s.bc.buf i).valid = true ∧
            (∀ j, (s.bc.buf j).dev = rootdev → (s.bc.buf j).blockno = b → j = i) ∧
            (s.bc.buf i).refcnt = (∑ p, (s.proc p).uses i) + 1 ∧
            (∀ p blockno s', step s (.bget p blockno) = some s' →
              (s'.bc.buf i).dev = rootdev ∧ (s'.bc.buf i).blockno = b ∧
                (s'.bc.buf i).valid = true ∧ (s'.bc.buf i).data = (s.bc.buf i).data) ∧
            (∀ p s', step s (.bget p b) = some s' → (s'.proc p).wait = some i) ∧
            (∀ p s', (s.proc p).wait = some i → step s (.lock p) = some s' →
              s'.bc.buf i = s.bc.buf i)) := by
  have hrun : Steps.run step (init 2 ⟨[], fun _ => 0⟩ 0 : Sys (Fin 1) ℕ)
      [.beginOp 0, .bget 0 40, .lock 0, .modify 0 0 7, .logWrite 0 0, .brelse 0 0] = some _ := rfl
  have hs := Steps.reachable_of_run hrun
  exact ⟨_, hs, rfl, rfl, rfl, pin_of_reachable hs⟩

end Xv6.Log.Pin