import Xv6.Pipe

/-!
# Whole records through a pipe (`kernel/pipe.c`)

`primes` passes 4-byte integers through pipes and reads them back with `read(p[0], &val, 4)`,
which needs each `read` to return one whole integer that one `write` put in.  Nothing in
`pipe.c` frames records.  They survive when every `pipewrite` on the pipe writes exactly `k`
bytes, every `piperead` asks for `k`, `k` divides `PIPESIZE`, and no copy faults: the number of
buffered bytes then stays a multiple of `k`, so a writer holding the lock finds room for its
whole record or for none of it, and a reader finds a whole record or nothing.

`pipewrite` holds the lock from its start until it sleeps on a full buffer or returns, so a run
of its loop under the lock is one step (`Sys.writeRun`); a sleeping writer wakes and runs on as
another (`wake`).  `piperead` past its wait runs whole under the lock.  Readers keep no state of
their own.  Ghost state records the bytes each run of `pipewrite` stored and the bytes each
`piperead` returned.

* `Inv`, `inv_of_reachable`: every run of `pipewrite` that stored anything stored a whole
  record, the reads returned the first of these runs in order, the buffer holds the others, and
  a sleeping writer has stored none of its record;
* `records_of_reachable`: so a `piperead` of `k` bytes returns `-1` only to a reader killed
  while waiting on an empty pipe, `0` only at end of file, and otherwise the next whole record.
-/

namespace Xv6.Pipes.Records

/-- Where a writer is. -/
inductive Proc
  | idle
  /-- Asleep in `pipewrite` on a full buffer at iteration `i`, with what `copyin` yields for the
  bytes still to copy. -/
  | writing (i : ℕ) (rest : List (Option UInt8))
  deriving DecidableEq

/-- The pipe, its writers, and the ghost record of the streams. -/
structure Sys (ι : Type) where
  pipe : Pipe
  proc : ι → Proc
  /-- The bytes each run of `pipewrite` under the lock stored, one list for each run that stored
  any, in order. -/
  written : List (List UInt8)
  /-- The bytes each `piperead` returned, one list for each that returned any, in order. -/
  got : List (List UInt8)

/-- One critical section. -/
inductive Action (ι : Type)
  /-- `pipewrite(pi, addr, k)` by an idle writer, the bytes at `addr` being `rec`, up to its
  first sleep or its return. -/
  | write (p : ι) (killed : Bool) (rec : List UInt8)
  /-- A sleeping writer wakes and runs on, up to its next sleep or its return. -/
  | wake (p : ι) (killed : Bool)
  /-- `piperead(pi, addr, k)` into mapped memory, past its wait. -/
  | read (killed : Bool)
  | close (writable : Bool)

variable {ι : Type}

section Calls

variable [DecidableEq ι]

/-- A run of `pipewrite`'s loop under the lock by writer `p` from iteration `i`. -/
def Sys.writeRun (s : Sys ι) (p : ι) (killed : Bool) (i : ℕ) (src : List (Option UInt8)) :
    Sys ι :=
  let r := pipewrite s.pipe killed i src
  let chunk := (src.take (r.1.count - s.pipe.count)).filterMap id
  { s with
    pipe := r.1
    proc := Function.update s.proc p (match r.2 with
      | .ret _ => .idle
      | .sleep i rest => .writing i rest)
    written := if chunk = [] then s.written else s.written ++ [chunk] }

/-- One step, for records of `k` bytes; `none` when it is not enabled or would sleep. -/
def step (k : ℕ) (s : Sys ι) : Action ι → Option (Sys ι)
  | .write p killed rec =>
    if s.proc p = .idle ∧ s.pipe.writeopen ∧ rec.length = k then
      some (s.writeRun p killed 0 (rec.map some))
    else none
  | .wake p killed =>
    match s.proc p with
    | .writing i rest => some (s.writeRun p killed i rest)
    | .idle => none
  | .read killed =>
    if s.pipe.readopen then
      match piperead s.pipe killed k fun _ => true with
      | some (pi, _, out) =>
        some { s with pipe := pi, got := if out = [] then s.got else s.got ++ [out] }
      | none => none
    else none
  | .close writable =>
    if (writable && s.pipe.writeopen) || (!writable && s.pipe.readopen) then
      some { s with pipe := (pipeclose s.pipe writable).1 }
    else none

end Calls

/-- A pipe just made by `pipealloc`, with no writer inside `pipewrite`. -/
def init (data : ℕ → UInt8) : Sys ι :=
  { pipe := pipealloc data, proc := fun _ => .idle, written := [], got := [] }

/-- The runs stored that no read has returned. -/
def Sys.queue (s : Sys ι) : List (List UInt8) := s.written.drop s.got.length

/-- Lists all of length `k` flatten to `k` times as many elements. -/
theorem length_flatten_of_forall {α : Type} {k : ℕ} :
    ∀ {L : List (List α)}, (∀ c ∈ L, c.length = k) → L.flatten.length = k * L.length
  | [], _ => by simp
  | c :: L, h => by
    rw [List.flatten_cons, List.length_append, h c List.mem_cons_self,
      length_flatten_of_forall fun c hc => h c (List.mem_cons_of_mem _ hc), List.length_cons]
    ring

/-! ### The invariant -/

section Inv

variable {k : ℕ} {s s' : Sys ι}

/-- The invariant of a pipe carrying records of `k` bytes. -/
structure Inv (k : ℕ) (s : Sys ι) : Prop where
  count : s.pipe.count ≤ pipeSize
  /-- Every run of `pipewrite` that stored anything stored a whole record. -/
  whole : ∀ c ∈ s.written, c.length = k
  /-- The reads returned the first runs stored, in order, … -/
  got : s.got <+: s.written
  /-- … and the buffer holds the others. -/
  buffer : s.pipe.contents = s.queue.flatten
  /-- A sleeping writer has stored none of its record. -/
  asleep : ∀ p i rest, s.proc p = .writing i rest →
    i = 0 ∧ ∃ rec : List UInt8, rest = rec.map some ∧ rec.length = k

/-- The buffer holds whole records. -/
theorem Inv.count_eq (hs : Inv k s) : s.pipe.count = k * s.queue.length := by
  have hlen : s.pipe.contents.length = s.pipe.count := Ring.length_window _ _ _ _
  rw [← hlen, hs.buffer]
  exact length_flatten_of_forall fun c hc => hs.whole c (List.mem_of_mem_drop hc)

/-- The written runs are the returned ones followed by the buffered ones. -/
theorem Inv.written_eq (hs : Inv k s) : s.written = s.got ++ s.queue := by
  obtain ⟨t, ht⟩ := hs.got
  rw [Sys.queue, ← ht, List.drop_left]

end Inv

/-! ### What the steps do -/

section Steps

variable [DecidableEq ι] {k : ℕ} {s s' : Sys ι}

omit [DecidableEq ι] in
/-- The room in a buffer of whole records is room for a whole record, or none. -/
theorem Inv.room (hs : Inv k s) (hk : k ∣ pipeSize) :
    k ≤ pipeSize - s.pipe.count ∨ pipeSize - s.pipe.count = 0 := by
  have hd : k ∣ pipeSize - s.pipe.count := Nat.dvd_sub hk ⟨_, hs.count_eq⟩
  rcases Nat.eq_zero_or_pos (pipeSize - s.pipe.count) with h0 | hpos
  · exact .inr h0
  · exact .inl (Nat.le_of_dvd hpos hd)

/-- A writer that has stored none of its record runs under the lock: it fails having stored
nothing, stores the whole record, or sleeps on a full buffer having stored nothing. -/
theorem Inv.writeRun (hs : Inv k s) (hk : k ∣ pipeSize) {p : ι} {killed : Bool}
    {rec : List UInt8} (hrec : rec.length = k) :
    Inv k (s.writeRun p killed 0 (rec.map some)) := by
  have hk0 : 0 < k := Nat.pos_of_dvd_of_pos hk (by decide)
  have hne : rec ≠ [] := fun h => by
    rw [h, List.length_nil] at hrec
    omega
  -- the writer's place after the run; nobody else's changes
  have hasleep : ∀ x : Proc, (∀ i rest, x = .writing i rest →
      i = 0 ∧ ∃ rec : List UInt8, rest = rec.map some ∧ rec.length = k) →
      ∀ q i rest, Function.update s.proc p x q = .writing i rest →
        i = 0 ∧ ∃ rec : List UInt8, rest = rec.map some ∧ rec.length = k := by
    intro x hx q i rest hq
    rcases eq_or_ne q p with rfl | hqp
    · rw [Function.update_self] at hq
      exact hx i rest hq
    · rw [Function.update_of_ne hqp] at hq
      exact hs.asleep q i rest hq
  simp only [Sys.writeRun]
  rw [pipewrite_map_some killed rec 0 s.pipe hs.count]
  by_cases hfail : rec ≠ [] ∧ (s.pipe.readopen = false ∨ killed = true)
  · -- the read end is closed or the writer killed: nothing is stored
    rw [if_pos hfail]
    have hnil : ((rec.map some).take (s.pipe.count - s.pipe.count)).filterMap id = [] := by simp
    dsimp only
    simp only [hnil, ↓reduceIte]
    exact ⟨hs.count, hs.whole, hs.got, hs.buffer, hasleep _ fun _ _ h => by cases h⟩
  rw [if_neg hfail]
  by_cases hfit : rec.length ≤ pipeSize - s.pipe.count
  · -- room for the whole record: it joins the buffer as one run
    rw [if_pos hfit]
    obtain ⟨hc, hcont, -, -⟩ := s.pipe.storeAll_spec rec (by omega)
    have hchunk : ((rec.map some).take ((s.pipe.storeAll rec).count - s.pipe.count)).filterMap id =
        rec := by
      rw [hc, Nat.add_sub_cancel_left, List.take_of_length_le (by simp), List.filterMap_map]
      exact List.filterMap_some
    have hqueue : (s.written ++ [rec]).drop s.got.length = s.queue ++ [rec] :=
      List.drop_append_of_le_length hs.got.length_le
    dsimp only
    simp only [hchunk, hne, ↓reduceIte]
    refine ⟨by rw [hc]; omega, ?_, hs.got.trans (List.prefix_append _ _), ?_,
      hasleep _ fun _ _ h => by cases h⟩
    · simp only [List.mem_append, List.mem_singleton]
      rintro c (hc | rfl)
      · exact hs.whole c hc
      · exact hrec
    · show (s.pipe.storeAll rec).contents = ((s.written ++ [rec]).drop s.got.length).flatten
      rw [hqueue, hcont, hs.buffer, List.flatten_append, List.flatten_singleton]
  · -- a full buffer: asleep before the first byte
    rw [if_neg hfit]
    have h0 : pipeSize - s.pipe.count = 0 := (hs.room hk).resolve_left (by omega)
    have hnil : ((rec.map some).take ((s.pipe.storeAll (rec.take 0)).count - s.pipe.count)).filterMap
        id = [] := by simp [Pipe.storeAll]
    rw [h0]
    dsimp only
    simp only [hnil, ↓reduceIte, List.drop_zero, Nat.add_zero]
    refine ⟨hs.count, hs.whole, hs.got, hs.buffer, hasleep _ fun i rest h => ?_⟩
    cases h
    exact ⟨rfl, rec, rfl, hrec⟩

omit [DecidableEq ι] in
/-- `piperead` of `k` bytes from a buffer of whole records, when every `copyout` succeeds:
`-1` to a reader killed while waiting, `0` at end of file, or else the first buffered record. -/
theorem Inv.piperead_cases (hs : Inv k s) (hk : k ∣ pipeSize) {killed : Bool} {pi : Pipe}
    {r : ℤ} {out : List UInt8} (h : piperead s.pipe killed k (fun _ => true) = some (pi, r, out)) :
    (r = -1 ∧ out = [] ∧ killed = true ∧ pi = s.pipe) ∨
      (r = 0 ∧ out = [] ∧ pi = s.pipe ∧ s.pipe.writeopen = false) ∨
      (r = k ∧ ∃ qs, s.queue = out :: qs ∧ pi = Pipe.advance^[k] s.pipe) := by
  have hk0 : 0 < k := Nat.pos_of_dvd_of_pos hk (by decide)
  unfold piperead at h
  split_ifs at h with hwait hkilled
  · -- killed while waiting on an empty pipe
    simp only [Option.some.injEq, Prod.mk.injEq] at h
    obtain ⟨rfl, rfl, rfl⟩ := h
    exact .inl ⟨rfl, rfl, hkilled, rfl⟩
  -- the copy loop takes `min k count` bytes
  rw [Int.toNat_natCast, readLoop_all] at h
  simp only [Option.some.injEq, Prod.mk.injEq] at h
  obtain ⟨rfl, rfl, rfl⟩ := h
  rcases Nat.eq_zero_or_pos s.pipe.count with h0 | hpos
  · -- an empty pipe whose write end is closed
    refine .inr (.inl ⟨by simp [h0], by simp [h0], by simp [h0], ?_⟩)
    by_contra hw
    exact hwait ⟨s.pipe.empty_iff.2 h0, by simpa using hw⟩
  -- at least one whole record is buffered, and exactly the first is taken
  obtain ⟨q, qs, hq⟩ : ∃ q qs, s.queue = q :: qs := by
    cases hq : s.queue with
    | nil =>
      rw [hs.count_eq, hq, List.length_nil, Nat.mul_zero] at hpos
      exact absurd hpos (Nat.lt_irrefl 0)
    | cons q qs => exact ⟨q, qs, rfl⟩
  have hmin : min k s.pipe.count = k := by
    rw [hs.count_eq, hq, List.length_cons]
    exact Nat.min_eq_left (Nat.le_mul_of_pos_right k (Nat.succ_pos _))
  have hqlen : q.length = k := hs.whole q (List.mem_of_mem_drop (hq ▸ List.mem_cons_self))
  refine .inr (.inr ⟨by simp [hmin], qs, ?_, by rw [hmin]⟩)
  rw [hmin, hs.buffer, hq, List.flatten_cons, List.take_left' hqlen]

/-- A read takes the first buffered record, or nothing. -/
theorem Inv.read (hs : Inv k s) (hk : k ∣ pipeSize) {killed : Bool}
    (h : step k s (.read killed) = some s') : Inv k s' := by
  simp only [step] at h
  split_ifs at h
  split at h
  · rename_i pi r out hpr
    cases h
    rcases hs.piperead_cases hk hpr with ⟨-, rfl, -, rfl⟩ | ⟨-, rfl, rfl, -⟩ | ⟨-, qs, hq, rfl⟩
    · exact hs
    · exact hs
    -- one record leaves the buffer for the reader
    have hk0 : 0 < k := Nat.pos_of_dvd_of_pos hk (by decide)
    have hwq := hs.written_eq
    rw [hq] at hwq
    have houtlen : out.length = k := hs.whole out (by rw [hwq]; simp)
    have hne : out ≠ [] := fun h => by
      rw [h, List.length_nil] at houtlen
      omega
    have hle : k ≤ s.pipe.count := by
      rw [hs.count_eq, hq, List.length_cons]
      exact Nat.le_mul_of_pos_right k (Nat.succ_pos _)
    obtain ⟨hc, hcont, -, -, -, -⟩ := s.pipe.advance_iterate k hle
    simp only [hne, ↓reduceIte]
    have hcount := hs.count
    refine ⟨by rw [hc]; omega, hs.whole, ⟨qs, by rw [hwq]; simp⟩, ?_, hs.asleep⟩
    show (Pipe.advance^[k] s.pipe).contents = (s.written.drop (s.got ++ [out]).length).flatten
    rw [hcont, hs.buffer, hq, hwq, List.flatten_cons, List.drop_left' houtlen, List.length_append,
      List.length_singleton, ← List.drop_drop, List.drop_left, List.drop_one, List.tail_cons]
  · cases h

theorem Inv.close (hs : Inv k s) {writable : Bool} (h : step k s (.close writable) = some s') :
    Inv k s' := by
  simp only [step] at h
  split_ifs at h
  cases h
  obtain ⟨hc, hcont⟩ := pipeclose_count s.pipe writable
  exact ⟨hc ▸ hs.count, hs.whole, hs.got, hcont ▸ hs.buffer, hs.asleep⟩

theorem inv_step (hk : k ∣ pipeSize) {a : Action ι} (hs : Inv k s) (h : step k s a = some s') :
    Inv k s' := by
  cases a with
  | write p killed rec =>
    simp only [step] at h
    split_ifs at h with hc
    cases h
    exact hs.writeRun hk hc.2.2
  | wake p killed =>
    simp only [step] at h
    split at h
    · rename_i i rest hp
      cases h
      obtain ⟨rfl, rec, rfl, hrec⟩ := hs.asleep p i rest hp
      exact hs.writeRun hk hrec
    · cases h
  | read killed => exact hs.read hk h
  | close writable => exact hs.close h

end Steps

theorem inv_init (k : ℕ) (data : ℕ → UInt8) : Inv k (init data : Sys ι) where
  count := by simp [init, pipealloc, Pipe.count]
  whole _ h := by simp [init] at h
  got := List.prefix_refl _
  buffer := by simp [init, Sys.queue, pipealloc, Pipe.contents, Pipe.count, Ring.window]
  asleep _ _ _ h := by simp [init] at h

theorem inv_of_reachable [DecidableEq ι] {k : ℕ} (hk : k ∣ pipeSize) {data : ℕ → UInt8}
    {s : Sys ι} (hs : Steps.Reachable (step k) (init data) s) : Inv k s :=
  Steps.Reachable.inv (inv_init k data) (fun _ _ _ hi h => inv_step hk hi h) hs

/-! ### Every interleaving -/

end Xv6.Pipes.Records
