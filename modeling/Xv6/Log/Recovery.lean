import Xv6.Log.Disk

/-!
# Recovery after a crash at any point of a commit

A transaction is the in-memory header `lh` (distinct home blocks, outside the log, fewer than
`log.size` of them as `log_write` ensures) and the cache contents `cache` of its blocks.  It
commits from a disk `d0` whose header is clear, as `recover_from_log` and every earlier commit
leave it.

A crash leaves the disk in one of three phases: `Clean` (header clear, nothing outside the log
changed), `Committed` (header lists the transaction, its slots hold the new contents) or
`Installed` (header clear, the new contents at home).  Every prefix of `commit` and every prefix
of `recover_from_log` from a phase lands in a phase (`phase_commit_take`,
`phase_recoverFromLog_take`); a full recovery lands in `Clean` or `Installed`.
-/

namespace Xv6.Log

variable {D : Type*}

section Crash

variable (start size : ℕ) (lh : List ℕ) (cache : ℕ → D) (d0 : Disk D)

/-- Block `x` lies outside the log region `[start, start + size)`. -/
def Out (x : ℕ) : Prop := x < start ∨ start + size ≤ x

instance (x : ℕ) : Decidable (Out start size x) :=
  inferInstanceAs (Decidable (x < start ∨ start + size ≤ x))

/-- The contents of block `x` once the transaction is installed. -/
def installed (x : ℕ) : D := if x ∈ lh then cache x else d0.blk x

/-- Before the commit point: the header is clear and nothing outside the log has changed. -/
def Clean (d : Disk D) : Prop := d.head = [] ∧ ∀ x, Out start size x → d.blk x = d0.blk x

/-- After the commit point: the header lists the transaction, each slot holds its block's new
contents, and outside the log only the home blocks may have changed. -/
def Committed (d : Disk D) : Prop :=
  d.head = lh ∧ (∀ i (h : i < lh.length), d.blk (start + i + 1) = cache lh[i]) ∧
    ∀ x, Out start size x → x ∉ lh → d.blk x = d0.blk x

/-- After the transaction: the header is clear and every block outside the log holds its
installed contents. -/
def Installed (d : Disk D) : Prop :=
  d.head = [] ∧ ∀ x, Out start size x → d.blk x = installed lh cache d0 x

/-- The places a crash can leave the disk. -/
def Phase (d : Disk D) : Prop :=
  Clean start size d0 d ∨ Committed start size lh cache d0 d ∨ Installed start size lh cache d0 d

/-- The disks a crash can leave: a crash after any prefix of the commit's writes, then any
number of recoveries, each interrupted after any prefix of its writes. -/
inductive Crashed : Disk D → Prop
  | commit (k : ℕ) : Crashed (d0.run ((commit start lh cache d0).take k))
  | recover {d : Disk D} (j : ℕ) : Crashed d → Crashed (d.run ((recoverFromLog start d).take j))

end Crash

/-! ### Lengths and prefixes -/

theorem length_writeLog (start : ℕ) (cache : ℕ → D) :
    ∀ (tail : ℕ) (bs : List ℕ), (writeLog start cache tail bs).length = bs.length
  | _, [] => rfl
  | tail, _ :: bs => by simp [writeLog, length_writeLog start cache (tail + 1) bs]

theorem length_blks_homes (cache : ℕ → D) (bs : List ℕ) :
    (blks (homes cache bs)).length = bs.length := by
  simp [blks, homes]

theorem writeLog_take (start : ℕ) (cache : ℕ → D) (bs : List ℕ) (k : ℕ) :
    (writeLog start cache 0 bs).take k = writeLog start cache 0 (bs.take k) := by
  rw [writeLog_eq_blks, writeLog_eq_blks, blks, ← List.map_take, logSlots_take]
  rfl

theorem blks_homes_take (cache : ℕ → D) (bs : List ℕ) (k : ℕ) :
    (blks (homes cache bs)).take k = blks (homes cache (bs.take k)) := by
  simp only [blks, homes, ← List.map_take]

theorem Disk.run_head_blks (d : Disk D) (vs : List (ℕ × D)) :
    (d.run (blks vs)).head = d.head := by
  rw [Disk.run_blks]

theorem Disk.run_writeLog_head (d : Disk D) (start : ℕ) (cache : ℕ → D) (tail : ℕ)
    (bs : List ℕ) : (d.run (writeLog start cache tail bs)).head = d.head := by
  rw [writeLog_eq_blks, Disk.run_head_blks]

/-- With a clear header, a recovery only rewrites the clear header. -/
theorem run_recoverFromLog_take_of_head_nil (start : ℕ) {d : Disk D} (h : d.head = []) (j : ℕ) :
    d.run ((recoverFromLog start d).take j) = d := by
  rw [recoverFromLog, readHead, h]
  cases j with
  | zero => rfl
  | succ j =>
    obtain ⟨head, blk⟩ := d
    simp only at h
    simp [installTrans, writeHead, DiskWrite.apply, h]

/-- A recovery always ends with the header clear. -/
theorem recover_head (start : ℕ) (d : Disk D) : (recover start d).head = [] := by
  rw [recover, recoverFromLog, Disk.run_append]
  rfl

/-- Recovering a recovered disk changes nothing. -/
theorem recover_recover (start : ℕ) (d : Disk D) :
    recover start (recover start d) = recover start d := by
  have h := run_recoverFromLog_take_of_head_nil start (recover_head start d)
    (recoverFromLog start (recover start d)).length
  rwa [List.take_length] at h

/-! ### The phases -/

section Phases

variable {start size : ℕ} {lh : List ℕ} {cache : ℕ → D} {d0 : Disk D}

/-- A home block outside the log lies beyond the slots of a transaction that fits the log. -/
theorem out_beyond_slots (hlen : lh.length < size) {x : ℕ} (hx : Out start size x) (k : ℕ) :
    x ≤ start + 0 ∨ start + 0 + (lh.take k).length < x := by
  have := List.length_take_le' k lh
  unfold Out at hx
  omega

/-- The home writes and the clearing of the header take a committed disk to an installed one. -/
theorem installed_of_committed (hnd : lh.Nodup) {d : Disk D}
    (hd : Committed start size lh cache d0 d) :
    Installed start size lh cache d0 (d.run (blks (homes cache lh) ++ writeHead [])) := by
  obtain ⟨-, -, hrest⟩ := hd
  refine ⟨by rw [Disk.run_append]; rfl, fun x hx => ?_⟩
  simp only [writeHead, Disk.run_append, Disk.run_cons, DiskWrite.apply, Disk.run_nil,
    Disk.run_blks]
  unfold installed
  split_ifs with hxl
  · exact Writes.apply_eq_of_mem (w := (x, cache x)) (homes_nodup cache hnd)
      (List.mem_map_of_mem hxl)
  · rw [Writes.apply_of_forall_ne, hrest x hx hxl]
    intro p hp hpx
    obtain ⟨b, hb, rfl⟩ := List.mem_map.1 hp
    exact hxl (hpx ▸ hb)

/-- The home writes, interrupted after any prefix and then completed by the clearing of the
header, take a committed disk through committed disks to an installed one. -/
theorem phase_homes_take (hnd : lh.Nodup) (hlen : lh.length < size)
    (hout : ∀ b ∈ lh, Out start size b) {d : Disk D} (hd : Committed start size lh cache d0 d)
    (j : ℕ) :
    Phase start size lh cache d0 (d.run ((blks (homes cache lh) ++ writeHead []).take j)) := by
  by_cases hj : j ≤ lh.length
  · -- some of the home writes made it: still committed
    obtain ⟨hhead, hslot, hrest⟩ := hd
    rw [List.take_append, Disk.run_append, blks_homes_take, length_blks_homes,
      Nat.sub_eq_zero_of_le hj, List.take_zero, Disk.run_nil, Disk.run_blks]
    refine Or.inr (Or.inl ⟨hhead, fun i hi => ?_, fun x hx hxl => ?_⟩)
    · dsimp only
      rw [Writes.apply_of_forall_ne, hslot i hi]
      intro p hp hpx
      obtain ⟨b, hb, rfl⟩ := List.mem_map.1 hp
      have := hout b (List.mem_of_mem_take hb)
      unfold Out at this
      simp only at hpx
      omega
    · dsimp only
      rw [Writes.apply_of_forall_ne, hrest x hx hxl]
      intro p hp hpx
      obtain ⟨b, hb, rfl⟩ := List.mem_map.1 hp
      exact hxl (hpx ▸ List.mem_of_mem_take hb)
  · -- all of them, and the header cleared
    have hall : (blks (homes cache lh) ++ (writeHead [] : List (DiskWrite D))).length ≤ j := by
      simp only [List.length_append, length_blks_homes, writeHead, List.length_singleton]
      omega
    rw [List.take_of_length_le hall]
    exact Or.inr (Or.inr (installed_of_committed hnd hd))

/-- On a committed disk, `install_trans` writes each home block's new contents. -/
theorem installTrans_of_committed (hlen : lh.length < size) (hout : ∀ b ∈ lh, Out start size b)
    {d : Disk D} (hd : Committed start size lh cache d0 d) :
    installTrans start 0 lh d = blks (homes cache lh) := by
  apply installTrans_eq_homes start cache 0 lh d (fun i hi => by simpa using hd.2.1 i hi)
  intro b hb
  have := out_beyond_slots hlen (hout b hb) lh.length
  rwa [List.take_length] at this

/-- Once `write_log` and `write_head` are done the disk is committed: the commit point. -/
theorem committed_writeLog_head (hlen : lh.length < size) :
    Committed start size lh cache d0 (d0.run (writeLog start cache 0 lh ++ writeHead lh)) := by
  rw [Disk.run_append]
  refine ⟨rfl, fun i hi => ?_, fun x hx _ => ?_⟩
  · simpa [writeHead, DiskWrite.apply] using run_writeLog_slot d0 start cache 0 lh i hi
  · have hx' := out_beyond_slots hlen hx lh.length
    rw [List.take_length] at hx'
    simpa [writeHead, DiskWrite.apply] using run_writeLog_other d0 start cache 0 lh hx'

/-- Every prefix of a commit from a clean disk leaves the disk in a phase. -/
theorem phase_commit_take (hclean : d0.head = []) (hnd : lh.Nodup) (hlen : lh.length < size)
    (hout : ∀ b ∈ lh, Out start size b) (k : ℕ) :
    Phase start size lh cache d0 (d0.run ((commit start lh cache d0).take k)) := by
  unfold commit
  split_ifs with hpos
  swap
  · rw [List.take_nil, Disk.run_nil]
    exact Or.inl ⟨hclean, fun _ _ => rfl⟩
  have hcomm : Committed start size lh cache d0
      (d0.run (writeLog start cache 0 lh ++ writeHead lh)) := committed_writeLog_head hlen
  rw [installTrans_of_committed hlen hout hcomm, List.append_assoc, List.append_assoc,
    List.take_append, Disk.run_append, length_writeLog]
  by_cases hk : k ≤ lh.length
  · -- the crash came while the log was being written: the header is still clear
    rw [Nat.sub_eq_zero_of_le hk, List.take_zero, Disk.run_nil, writeLog_take]
    refine Or.inl ⟨by rw [Disk.run_writeLog_head, hclean], fun x hx => ?_⟩
    exact run_writeLog_other d0 start cache 0 _ (out_beyond_slots hlen hx k)
  · -- past the commit point
    obtain ⟨j, hj⟩ : ∃ j, k - lh.length = j + 1 := ⟨k - lh.length - 1, by omega⟩
    rw [List.take_of_length_le (by rw [length_writeLog]; omega), hj,
      show (writeHead lh : List (DiskWrite D)) ++ (blks (homes cache lh) ++ writeHead []) =
        .head lh :: (blks (homes cache lh) ++ writeHead []) from rfl,
      List.take_succ_cons, Disk.run_cons]
    have hd1 : (DiskWrite.head lh).apply (d0.run (writeLog start cache 0 lh)) =
        d0.run (writeLog start cache 0 lh ++ writeHead lh) := by
      rw [Disk.run_append]
      rfl
    rw [hd1]
    exact phase_homes_take hnd hlen hout hcomm j

/-- A whole commit from a clean disk installs the transaction. -/
theorem commit_installed (hclean : d0.head = []) (hnd : lh.Nodup) (hlen : lh.length < size)
    (hout : ∀ b ∈ lh, Out start size b) :
    Installed start size lh cache d0 (d0.run (commit start lh cache d0)) := by
  unfold commit
  split_ifs with hpos
  · have hcomm : Committed start size lh cache d0
        (d0.run (writeLog start cache 0 lh ++ writeHead lh)) := committed_writeLog_head hlen
    rw [installTrans_of_committed hlen hout hcomm, List.append_assoc, Disk.run_append]
    exact installed_of_committed hnd hcomm
  · have hnil : lh = [] := List.eq_nil_of_length_eq_zero (by omega)
    subst hnil
    exact ⟨hclean, fun x _ => by simp [installed]⟩

/-- Every prefix of a recovery from a disk in a phase leaves it in a phase. -/
theorem phase_recoverFromLog_take (hnd : lh.Nodup) (hlen : lh.length < size)
    (hout : ∀ b ∈ lh, Out start size b) {d : Disk D} (hd : Phase start size lh cache d0 d)
    (j : ℕ) :
    Phase start size lh cache d0 (d.run ((recoverFromLog start d).take j)) := by
  rcases hd with hc | hc | hc
  · rw [run_recoverFromLog_take_of_head_nil start hc.1]
    exact Or.inl hc
  · rw [recoverFromLog, readHead, hc.1, installTrans_of_committed hlen hout hc]
    exact phase_homes_take hnd hlen hout hc j
  · rw [run_recoverFromLog_take_of_head_nil start hc.1]
    exact Or.inr (Or.inr hc)

theorem phase_of_crashed (hclean : d0.head = []) (hnd : lh.Nodup) (hlen : lh.length < size)
    (hout : ∀ b ∈ lh, Out start size b) {d : Disk D} (hd : Crashed start lh cache d0 d) :
    Phase start size lh cache d0 d := by
  induction hd with
  | commit k => exact phase_commit_take hclean hnd hlen hout k
  | recover j _ ih => exact phase_recoverFromLog_take hnd hlen hout ih j

/-- A full recovery from a disk in a phase ends clean or installed. -/
theorem recover_of_phase (hnd : lh.Nodup) (hlen : lh.length < size)
    (hout : ∀ b ∈ lh, Out start size b) {d : Disk D} (hd : Phase start size lh cache d0 d) :
    Clean start size d0 (recover start d) ∨ Installed start size lh cache d0 (recover start d) := by
  have h := phase_recoverFromLog_take hnd hlen hout hd (recoverFromLog start d).length
  rw [List.take_length] at h
  rcases h with h | ⟨hlh, -, hrest⟩ | h
  · exact Or.inl h
  · -- a committed disk with a clear header: the transaction is empty
    have hnil : lh = [] := by rw [← hlh]; exact recover_head start d
    subst hnil
    exact Or.inl ⟨recover_head start d, fun x hx => hrest x hx (List.not_mem_nil)⟩
  · exact Or.inr h

end Phases

/-- **Recovery after any crash.**  A transaction of distinct home blocks outside the log, that
fits the log, commits from a disk with a clear header.  After a crash at any point of the commit
and any number of recoveries interrupted at any point, a recovery leaves the header clear and
every block outside the log either as it was before the transaction, or as the transaction
leaves it: its home blocks with their new contents, every other block as before. -/
theorem recover_after_crash {start size : ℕ} {lh : List ℕ} {cache : ℕ → D} {d0 : Disk D}
    (hclean : d0.head = []) (hnd : lh.Nodup) (hlen : lh.length < size)
    (hout : ∀ b ∈ lh, Out start size b) {d : Disk D} (hd : Crashed start lh cache d0 d) :
    (recover start d).head = [] ∧
      ((∀ x, Out start size x → (recover start d).blk x = d0.blk x) ∨
        ∀ x, Out start size x → (recover start d).blk x = installed lh cache d0 x) := by
  refine ⟨recover_head start d, ?_⟩
  rcases recover_of_phase hnd hlen hout (phase_of_crashed hclean hnd hlen hout hd) with h | h
  · exact Or.inl h.2
  · exact Or.inr h.2

/-- `recover_after_crash` at a crash in the middle of installing a two-block transaction. -/
theorem recover_after_crash_two_blocks :
    (recover 2 ((⟨[], fun _ => 0⟩ : Disk ℕ).run
        ((commit 2 [40, 41] (fun _ => 7) ⟨[], fun _ => 0⟩).take 4))).head = [] ∧
      ((∀ x, Out 2 30 x → (recover 2 ((⟨[], fun _ => 0⟩ : Disk ℕ).run
          ((commit 2 [40, 41] (fun _ => 7) ⟨[], fun _ => 0⟩).take 4))).blk x = 0) ∨
        ∀ x, Out 2 30 x → (recover 2 ((⟨[], fun _ => 0⟩ : Disk ℕ).run
          ((commit 2 [40, 41] (fun _ => 7) ⟨[], fun _ => 0⟩).take 4))).blk x =
            installed [40, 41] (fun _ => 7) ⟨[], fun _ => 0⟩ x) :=
  recover_after_crash rfl (by decide) (by decide) (by simp [Out]) (Crashed.commit 4)

/-- The log's own blocks do change: after a crash just past `write_log` of a one-block
transaction, recovery leaves the log slot of block `40` holding its new contents. -/
theorem recover_rewrites_log_slot :
    3 ∉ [40] ∧ (recover 2 ((⟨[], fun _ => 0⟩ : Disk ℕ).run
      ((commit 2 [40] (fun _ => 7) ⟨[], fun _ => 0⟩).take 1))).blk 3 ≠ 0 := by
  decide

end Xv6.Log
