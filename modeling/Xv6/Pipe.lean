import Xv6.Lib.Ring
import Xv6.Lib.Run
import Xv6.Param

/-!
# Pipes (`kernel/pipe.c`)

A pipe is a `PIPESIZE`-byte ring buffer with free-running `uint` counters `nread` and `nwrite`:
byte number `m` of the stream lives at `data[m % PIPESIZE]`, and the buffer holds
`nwrite - nread` bytes, computed modulo `2^32`.  Since `PIPESIZE` divides `2^32`, the slots stay
right when the counters wrap (`Pipe.nwrite_mod`); the buffer is `Ring.window` over them.

Every access holds the pipe's lock, which `pipewrite` and `piperead` release only to sleep.  The
copy loop of `piperead` runs whole under the lock; `pipewrite`'s loop may sleep between two
bytes.  The system below takes one pass of `pipewrite`'s loop (`writeIter`) as a step, which
admits every interleaving the lock admits; `pipewrite` itself, the run of passes between two
sleeps, is a run of these steps (`run_pipewrite`).  The callers hold a file of each end they use,
so a write needs the write end open, a read the read end, and `pipeclose` closes an open end.

Ghost state records the bytes stored, the bytes taken out of the buffer, the bytes `piperead`
returned, and the calls of `kfree`.

* `Inv`, `inv_of_reachable`: `0 ≤ nwrite - nread ≤ PIPESIZE` through any wrap; the bytes taken
  followed by the buffer are the bytes stored; the bytes returned are a sublist of those taken;
  the page is freed once, when both ends are closed;
* `piperead_eq_zero`: a read of `n > 0` bytes whose first `copyout` succeeds returns `0` only on an
  empty pipe whose write end is closed.
-/

namespace Xv6.Pipes

/-- `struct pipe`, less its lock. -/
structure Pipe where
  /-- `data[PIPESIZE]`: only the slots below `PIPESIZE` are used. -/
  data : ℕ → UInt8
  /-- Number of bytes read. -/
  nread : UInt32
  /-- Number of bytes written. -/
  nwrite : UInt32
  /-- The read file is still open. -/
  readopen : Bool
  /-- The write file is still open. -/
  writeopen : Bool

/-- The pipe `pipealloc` makes in a fresh page holding `data`. -/
def pipealloc (data : ℕ → UInt8) : Pipe :=
  { data := data, nread := 0, nwrite := 0, readopen := true, writeopen := true }

/-- `PIPESIZE` as the `uint` it is promoted to against the counters. -/
def pipeSize32 : UInt32 := UInt32.ofNat pipeSize

/-- `pi->data[pi->nwrite++ % PIPESIZE] = c`. -/
def Pipe.store (pi : Pipe) (c : UInt8) : Pipe :=
  { pi with
    data := Function.update pi.data (pi.nwrite % pipeSize32).toNat c
    nwrite := pi.nwrite + 1 }

/-- `pi->nread++`. -/
def Pipe.advance (pi : Pipe) : Pipe := { pi with nread := pi.nread + 1 }

/-! ### `pipe.c` -/

/-- How one pass of `pipewrite`'s loop ends. -/
inductive WriteIter
  /-- The byte went into the buffer. -/
  | stored
  /-- `return -1`: the read end is closed or the writer was killed. -/
  | fail
  /-- The buffer is full: `wakeup(&pi->nread)` and sleep, releasing the lock. -/
  | full
  /-- `copyin` failed: `break`. -/
  | fault
  deriving DecidableEq

/-- One pass of `pipewrite`'s loop, with what `copyin` yields for the byte (`none`: it
faults). -/
def writeIter (pi : Pipe) (killed : Bool) (ch : Option UInt8) : Pipe × WriteIter :=
  if pi.readopen = false ∨ killed = true then (pi, .fail)
  else if pi.nwrite = pi.nread + pipeSize32 then (pi, .full)
  else
    match ch with
    | none => (pi, .fault)
    | some c => (pi.store c, .stored)

/-- Where a run of `pipewrite`'s loop under the lock stops. -/
inductive WriteEnd
  /-- `pipewrite` returns `r`. -/
  | ret (r : ℤ)
  /-- Asleep on a full buffer at iteration `i`, with the bytes `rest` still to copy. -/
  | sleep (i : ℕ) (rest : List (Option UInt8))

/-- `pipewrite(pi, addr, n)` from iteration `i` until it sleeps or returns; `src` holds what
`copyin` yields for bytes `i, …, n - 1`. -/
def pipewrite (pi : Pipe) (killed : Bool) : ℕ → List (Option UInt8) → Pipe × WriteEnd
  | i, [] => (pi, .ret i)
  | i, ch :: src =>
    match writeIter pi killed ch with
    | (pi', .stored) => pipewrite pi' killed (i + 1) src
    | (pi', .fail) => (pi', .ret (-1))
    | (pi', .full) => (pi', .sleep i (ch :: src))
    | (pi', .fault) => (pi', .ret i)

/-- The copy loop of `piperead` from `i`, with `k` iterations left: the pipe after it, the final
`i` and the bytes `copyout` delivered.  `ok j`: whether `copyout` of byte `j` succeeds. -/
def readLoop (ok : ℕ → Bool) (i : ℕ) : ℕ → Pipe → Pipe × ℕ × List UInt8
  | 0, pi => (pi, i, [])
  | k + 1, pi =>
    if pi.nread = pi.nwrite then (pi, i, [])
    else
      let ch := pi.data (pi.nread % pipeSize32).toNat
      if ok i then
        let r := readLoop ok (i + 1) k pi.advance
        (r.1, r.2.1, ch :: r.2.2)
      else (pi.advance, i, [])

/-- `piperead(pi, addr, n)` once it holds the lock: `none` while it sleeps on an empty pipe
with the write end open; otherwise the pipe after it, its return value and the bytes copied
out. -/
def piperead (pi : Pipe) (killed : Bool) (n : ℤ) (ok : ℕ → Bool) :
    Option (Pipe × ℤ × List UInt8) :=
  if pi.nread = pi.nwrite ∧ pi.writeopen = true then
    if killed then some (pi, -1, []) else none
  else
    let r := readLoop ok 0 n.toNat pi
    some (r.1, r.2.1, r.2.2)

/-- `pipeclose(pi, writable)`: the pipe after it and whether it frees the page. -/
def pipeclose (pi : Pipe) (writable : Bool) : Pipe × Bool :=
  let pi := if writable then { pi with writeopen := false } else { pi with readopen := false }
  (pi, !pi.readopen && !pi.writeopen)

/-! ### Counters modulo `2^32` -/

/-- The number of buffered bytes, `nwrite - nread` in `uint` arithmetic. -/
def Pipe.count (pi : Pipe) : ℕ := (pi.nwrite - pi.nread).toNat

/-- The buffered bytes, oldest first. -/
def Pipe.contents (pi : Pipe) : List UInt8 :=
  Ring.window pi.data pipeSize pi.nread.toNat pi.count

theorem toNat_pipeSize32 : pipeSize32.toNat = pipeSize := rfl

theorem Pipe.count_eq (pi : Pipe) :
    pi.count = (2 ^ 32 - pi.nread.toNat + pi.nwrite.toNat) % 2 ^ 32 :=
  UInt32.toNat_sub _ _

/-- The write slot follows the buffered bytes, whether the counters have wrapped or not. -/
theorem Pipe.nwrite_mod (pi : Pipe) :
    pi.nwrite.toNat % pipeSize = (pi.nread.toNat + pi.count) % pipeSize := by
  have ha := pi.nread.toNat_lt
  have hb := pi.nwrite.toNat_lt
  rw [pi.count_eq, pipeSize]
  omega

/-- `pipewrite`'s full test. -/
theorem Pipe.full_iff (pi : Pipe) : pi.nwrite = pi.nread + pipeSize32 ↔ pi.count = pipeSize := by
  have ha := pi.nread.toNat_lt
  have hb := pi.nwrite.toNat_lt
  rw [← UInt32.toNat_inj, UInt32.toNat_add, toNat_pipeSize32, pi.count_eq, pipeSize]
  omega

/-- `piperead`'s empty test. -/
theorem Pipe.empty_iff (pi : Pipe) : pi.nread = pi.nwrite ↔ pi.count = 0 := by
  have ha := pi.nread.toNat_lt
  have hb := pi.nwrite.toNat_lt
  rw [← UInt32.toNat_inj, pi.count_eq]
  omega

theorem Pipe.count_store (pi : Pipe) (c : UInt8) (h : pi.count < pipeSize) :
    (pi.store c).count = pi.count + 1 := by
  have ha := pi.nread.toNat_lt
  have hb := pi.nwrite.toNat_lt
  rw [Pipe.count_eq] at h
  rw [Pipe.count_eq (pi.store c), Pipe.count_eq pi]
  simp only [Pipe.store, UInt32.toNat_add, UInt32.toNat_one]
  unfold pipeSize at h
  omega

/-- Storing into a buffer that is not full appends the byte. -/
theorem Pipe.contents_store (pi : Pipe) (c : UInt8) (h : pi.count < pipeSize) :
    (pi.store c).contents = pi.contents ++ [c] := by
  have hidx : (pi.nwrite % pipeSize32).toNat = (pi.nread.toNat + pi.count) % pipeSize := by
    rw [UInt32.toNat_mod, toNat_pipeSize32, Pipe.nwrite_mod]
  unfold Pipe.contents
  rw [pi.count_store c h]
  show Ring.window (Function.update pi.data (pi.nwrite % pipeSize32).toNat c) pipeSize
    pi.nread.toNat (pi.count + 1) = _
  rw [hidx]
  exact Ring.window_push pi.data h c

theorem Pipe.count_advance (pi : Pipe) (h : pi.count ≠ 0) : pi.advance.count = pi.count - 1 := by
  have ha := pi.nread.toNat_lt
  have hb := pi.nwrite.toNat_lt
  rw [Pipe.count_eq] at h
  rw [Pipe.count_eq pi.advance, Pipe.count_eq pi]
  simp only [Pipe.advance, UInt32.toNat_add, UInt32.toNat_one]
  omega

/-- Taking a byte out of a non-empty buffer removes its oldest byte. -/
theorem Pipe.contents_advance (pi : Pipe) (h : pi.count ≠ 0) :
    pi.contents = pi.data (pi.nread % pipeSize32).toNat :: pi.advance.contents := by
  obtain ⟨k, hk⟩ : ∃ k, pi.count = k + 1 := ⟨pi.count - 1, by omega⟩
  have hmod : (pi.nread.toNat + 1) % pipeSize = pi.advance.nread.toNat % pipeSize := by
    simp only [Pipe.advance, UInt32.toNat_add, UInt32.toNat_one]
    rw [Nat.mod_mod_of_dvd _ (by decide : pipeSize ∣ 2 ^ 32)]
  unfold Pipe.contents
  rw [hk, Ring.window_succ, pi.count_advance h, hk, Nat.add_sub_cancel, UInt32.toNat_mod,
    toNat_pipeSize32, Ring.window_congr pi.data hmod]
  rfl

theorem Pipe.advance_iterate (pi : Pipe) :
    ∀ m, m ≤ pi.count → (Pipe.advance^[m] pi).count = pi.count - m ∧
      (Pipe.advance^[m] pi).contents = pi.contents.drop m ∧
      (Pipe.advance^[m] pi).nwrite = pi.nwrite ∧ (Pipe.advance^[m] pi).data = pi.data ∧
      (Pipe.advance^[m] pi).readopen = pi.readopen ∧ (Pipe.advance^[m] pi).writeopen = pi.writeopen
  | 0, _ => ⟨rfl, rfl, rfl, rfl, rfl, rfl⟩
  | m + 1, hm => by
    have h0 : pi.count ≠ 0 := by omega
    obtain ⟨hc, hcont, hw, hd, hr, hwo⟩ :=
      Pipe.advance_iterate pi.advance m (by rw [pi.count_advance h0]; omega)
    rw [Function.iterate_succ_apply]
    refine ⟨by rw [hc, pi.count_advance h0]; omega, ?_, hw, hd, hr, hwo⟩
    rw [hcont, pi.contents_advance h0, List.drop_succ_cons]

/-! ### What the functions do -/

/-- The copy loop takes `m` bytes out of the buffer and delivers the first of them, up to the
first failing `copyout`. -/
theorem readLoop_spec (ok : ℕ → Bool) :
    ∀ (k i : ℕ) (pi : Pipe), ∃ m ≤ pi.count,
      (readLoop ok i k pi).1 = Pipe.advance^[m] pi ∧
      (readLoop ok i k pi).2.1 = i + (readLoop ok i k pi).2.2.length ∧
      List.Sublist (readLoop ok i k pi).2.2 (pi.contents.take m) ∧
      ((∀ j, ok j = true) → (readLoop ok i k pi).2.2 = pi.contents.take m)
  | 0, i, pi => ⟨0, Nat.zero_le _, rfl, rfl, List.nil_sublist _, fun _ => rfl⟩
  | k + 1, i, pi => by
    by_cases he : pi.nread = pi.nwrite
    · refine ⟨0, Nat.zero_le _, ?_⟩
      simp [readLoop, he]
    · have h0 : pi.count ≠ 0 := fun h => he (pi.empty_iff.2 h)
      by_cases hok : ok i = true
      · -- one byte delivered, and the rest by the loop from there
        obtain ⟨m, hm, h1, h2, h3, h4⟩ := readLoop_spec ok k (i + 1) pi.advance
        refine ⟨m + 1, by rw [pi.count_advance h0] at hm; omega, ?_⟩
        simp only [readLoop, he, if_false, hok, if_true, List.length_cons]
        rw [pi.contents_advance h0, List.take_succ_cons]
        refine ⟨by rw [h1, Function.iterate_succ_apply], by rw [h2]; omega, h3.cons_cons _,
          fun hall => by rw [h4 hall]⟩
      · -- the byte is taken, the copy fails, nothing is delivered
        refine ⟨1, by omega, ?_⟩
        simp only [readLoop, he, if_false, hok]
        exact ⟨rfl, rfl, List.nil_sublist _, fun hall => absurd (hall i) hok⟩

/-- The copy loop when every `copyout` succeeds: it takes and delivers the first
`min k count` bytes of the buffer. -/
theorem readLoop_all : ∀ (k i : ℕ) (pi : Pipe),
    readLoop (fun _ => true) i k pi =
      (Pipe.advance^[min k pi.count] pi, i + min k pi.count, pi.contents.take (min k pi.count))
  | 0, i, pi => by simp [readLoop]
  | k + 1, i, pi => by
    by_cases he : pi.nread = pi.nwrite
    · have h0 : pi.count = 0 := pi.empty_iff.1 he
      simp [readLoop, he, h0]
    · have h0 : pi.count ≠ 0 := fun h => he (pi.empty_iff.2 h)
      have hmin : min (k + 1) pi.count = min k pi.advance.count + 1 := by
        rw [pi.count_advance h0]
        omega
      simp only [readLoop, he, if_false, if_true, readLoop_all k (i + 1) pi.advance, hmin,
        Function.iterate_succ_apply, pi.contents_advance h0, List.take_succ_cons]
      refine Prod.ext rfl (Prod.ext ?_ rfl)
      dsimp only
      omega

/-- A read of `n > 0` bytes whose first `copyout` succeeds returns `0` only on an empty pipe whose
write end is closed. -/
theorem piperead_eq_zero {pi pi' : Pipe} {killed : Bool} {n : ℤ} {ok : ℕ → Bool}
    {out : List UInt8} (h : piperead pi killed n ok = some (pi', 0, out)) (hn : 0 < n)
    (hok : ok 0 = true) : pi.nread = pi.nwrite ∧ pi.writeopen = false := by
  unfold piperead at h
  split_ifs at h with hwait hk
  · cases h
  · obtain ⟨k, hk'⟩ : ∃ k, n.toNat = k + 1 := ⟨n.toNat - 1, by omega⟩
    simp only [hk', Option.some.injEq, Prod.mk.injEq] at h
    by_cases he : pi.nread = pi.nwrite
    · exact ⟨he, by simpa [he] using hwait⟩
    · -- a byte is there and its copy succeeds: the loop returns at least one
      simp only [readLoop, he, if_false, hok, if_true, Nat.zero_add] at h
      obtain ⟨-, hret, -⟩ := h
      obtain ⟨m, -, -, h2, -⟩ := readLoop_spec ok k 1 pi.advance
      omega

/-- A pass of `pipewrite`'s loop either stores its byte in a buffer that is not full, or leaves
the pipe as it is. -/
theorem writeIter_spec (pi : Pipe) (killed : Bool) (ch : Option UInt8) :
    ((writeIter pi killed ch).2 = .stored ∧ pi.count ≠ pipeSize ∧
        ∃ c, ch = some c ∧ (writeIter pi killed ch).1 = pi.store c) ∨
      ((writeIter pi killed ch).2 ≠ .stored ∧ (writeIter pi killed ch).1 = pi) := by
  unfold writeIter
  split_ifs with hfail hfull
  · exact Or.inr ⟨by simp, rfl⟩
  · exact Or.inr ⟨by simp, rfl⟩
  · cases ch with
    | none => exact Or.inr ⟨by simp, rfl⟩
    | some c => exact Or.inl ⟨rfl, fun h => hfull (pi.full_iff.2 h), c, rfl, rfl⟩

/-- `piperead` takes some `m` bytes out of the buffer and returns a sublist of them, all of them
when no `copyout` fails. -/
theorem piperead_spec {pi pi' : Pipe} {killed : Bool} {n : ℤ} {ok : ℕ → Bool} {r : ℤ}
    {out : List UInt8} (h : piperead pi killed n ok = some (pi', r, out)) :
    ∃ m ≤ pi.count, pi' = Pipe.advance^[m] pi ∧ List.Sublist out (pi.contents.take m) ∧
      ((∀ j, ok j = true) → out = pi.contents.take m) := by
  unfold piperead at h
  split_ifs at h with hwait hk
  · -- killed while waiting: nothing happens
    simp only [Option.some.injEq, Prod.mk.injEq] at h
    obtain ⟨rfl, -, rfl⟩ := h
    exact ⟨0, Nat.zero_le _, rfl, List.nil_sublist _, fun _ => rfl⟩
  · simp only [Option.some.injEq, Prod.mk.injEq] at h
    obtain ⟨rfl, -, rfl⟩ := h
    obtain ⟨m, hm, h1, -, h3, h4⟩ := readLoop_spec ok n.toNat 0 pi
    exact ⟨m, hm, h1, h3, h4⟩

/-- Bytes stored one after another. -/
def Pipe.storeAll (pi : Pipe) (l : List UInt8) : Pipe := l.foldl Pipe.store pi

/-- Bytes stored into room for them join the buffer, in order. -/
theorem Pipe.storeAll_spec : ∀ (l : List UInt8) (pi : Pipe), pi.count + l.length ≤ pipeSize →
    (pi.storeAll l).count = pi.count + l.length ∧ (pi.storeAll l).contents = pi.contents ++ l ∧
      (pi.storeAll l).readopen = pi.readopen ∧ (pi.storeAll l).writeopen = pi.writeopen
  | [], pi, _ => ⟨rfl, by simp [Pipe.storeAll], rfl, rfl⟩
  | c :: l, pi, h => by
    have hlt : pi.count < pipeSize := by
      simp only [List.length_cons] at h
      omega
    obtain ⟨h1, h2, h3, h4⟩ := Pipe.storeAll_spec l (pi.store c)
      (by rw [pi.count_store c hlt]; simp only [List.length_cons] at h; omega)
    show ((pi.store c).storeAll l).count = _ ∧ ((pi.store c).storeAll l).contents = _ ∧ _
    refine ⟨by rw [h1, pi.count_store c hlt, List.length_cons]; omega, ?_, h3, h4⟩
    rw [h2, pi.contents_store c hlt, List.append_assoc, List.singleton_append]

/-- `pipewrite` of bytes that all copy in.  It fails at once if the read end is closed or the
writer is killed; otherwise it stores as many bytes as there is room for, and returns once all
are in or goes to sleep on the full buffer. -/
theorem pipewrite_map_some (killed : Bool) :
    ∀ (l : List UInt8) (i : ℕ) (pi : Pipe), pi.count ≤ pipeSize →
      pipewrite pi killed i (l.map some) =
        if l ≠ [] ∧ (pi.readopen = false ∨ killed = true) then (pi, .ret (-1))
        else if l.length ≤ pipeSize - pi.count then (pi.storeAll l, .ret ↑(i + l.length))
        else (pi.storeAll (l.take (pipeSize - pi.count)),
          .sleep (i + (pipeSize - pi.count)) ((l.drop (pipeSize - pi.count)).map some))
  | [], i, pi, _ => by simp [pipewrite, Pipe.storeAll]
  | c :: l, i, pi, hc => by
    by_cases hfail : pi.readopen = false ∨ killed = true
    · simp [pipewrite, writeIter, hfail]
    by_cases hfull : pi.count = pipeSize
    · -- a full buffer: asleep before the first byte
      have hw : pi.nwrite = pi.nread + pipeSize32 := pi.full_iff.2 hfull
      simp [pipewrite, writeIter, hfail, hw, hfull, Pipe.storeAll]
    -- room for the first byte: store it and go on
    have hlt : pi.count < pipeSize := lt_of_le_of_ne hc hfull
    have hw : ¬ pi.nwrite = pi.nread + pipeSize32 := fun h => hfull (pi.full_iff.1 h)
    obtain ⟨f, hf⟩ : ∃ f, pipeSize - pi.count = f + 1 := ⟨pipeSize - pi.count - 1, by omega⟩
    have hf' : pipeSize - (pi.store c).count = f := by
      rw [pi.count_store c hlt]
      omega
    have ih := pipewrite_map_some killed l (i + 1) (pi.store c) (by rw [pi.count_store c hlt]; omega)
    rw [hf'] at ih
    have hro : (pi.store c).readopen = pi.readopen := rfl
    simp only [hro, hfail, and_false, if_false] at ih
    simp only [List.map_cons, pipewrite, writeIter, hfail, hw, if_false, ih, hf, ne_eq,
      reduceCtorEq, not_false_eq_true, true_and, List.length_cons, List.take_succ_cons,
      List.drop_succ_cons, Nat.add_le_add_iff_right]
    split_ifs with hlen
    · refine Prod.ext rfl ?_
      simp only [WriteEnd.ret.injEq]
      push_cast
      ring
    · refine Prod.ext rfl ?_
      simp only [WriteEnd.sleep.injEq, and_true]
      omega

theorem pipeclose_count (pi : Pipe) (writable : Bool) :
    (pipeclose pi writable).1.count = pi.count ∧
      (pipeclose pi writable).1.contents = pi.contents := by
  unfold pipeclose
  cases writable <;> exact ⟨rfl, rfl⟩

/-! ### The system -/

/-- The pipe and the ghost record of its streams. -/
structure Sys where
  pipe : Pipe
  /-- Every byte `pipewrite` stored, in order. -/
  stored : List UInt8
  /-- Every byte `piperead` took out of the buffer (`nread++`), in order. -/
  taken : List UInt8
  /-- The bytes the `piperead` calls returned to user space, in completion order. -/
  got : List UInt8
  /-- The calls of `kfree` on the pipe's page. -/
  frees : ℕ

/-- One critical section: a pass of `pipewrite`'s loop, a `piperead` past its wait, a
`pipeclose`. -/
inductive Action
  | write (killed : Bool) (ch : Option UInt8)
  | read (killed : Bool) (n : ℤ) (ok : ℕ → Bool)
  | close (writable : Bool)

/-- One step; `none` when it would sleep or the caller holds no open file of that end. -/
def step (s : Sys) : Action → Option Sys
  | .write killed ch =>
    if s.pipe.writeopen then
      match writeIter s.pipe killed ch with
      | (pi, .stored) => some { s with pipe := pi, stored := s.stored ++ ch.toList }
      | (_, .full) => none
      | (_, _) => some s
    else none
  | .read killed n ok =>
    if s.pipe.readopen then
      match piperead s.pipe killed n ok with
      | some (pi, _, out) =>
        some { s with
          pipe := pi
          taken := s.taken ++ s.pipe.contents.take (s.pipe.count - pi.count)
          got := s.got ++ out }
      | none => none
    else none
  | .close writable =>
    if (writable && s.pipe.writeopen) || (!writable && s.pipe.readopen) then
      some { s with
        pipe := (pipeclose s.pipe writable).1
        frees := s.frees + if (pipeclose s.pipe writable).2 then 1 else 0 }
    else none

/-- A pipe just made by `pipealloc`. -/
def init (data : ℕ → UInt8) : Sys :=
  { pipe := pipealloc data, stored := [], taken := [], got := [], frees := 0 }

/-- The invariant of a pipe. -/
structure Inv (s : Sys) : Prop where
  /-- `0 ≤ nwrite - nread ≤ PIPESIZE`, modulo `2^32`. -/
  count : s.pipe.count ≤ pipeSize
  /-- The bytes taken, then the buffer, are the bytes stored: none lost, duplicated or
  reordered inside the pipe. -/
  fifo : s.taken ++ s.pipe.contents = s.stored
  /-- The reads returned some of the bytes taken, in order. -/
  got : List.Sublist s.got s.taken
  /-- The page has been freed once if both ends are closed, and never otherwise. -/
  frees : s.frees = if s.pipe.readopen = false ∧ s.pipe.writeopen = false then 1 else 0

theorem inv_init (data : ℕ → UInt8) : Inv (init data) where
  count := by simp [init, pipealloc, Pipe.count]
  fifo := by simp [init, pipealloc, Pipe.contents, Pipe.count, Ring.window]
  got := List.Sublist.slnil
  frees := rfl

section Steps

variable {s s' : Sys}

theorem Inv.write {killed : Bool} {ch : Option UInt8} (hs : Inv s)
    (h : step s (.write killed ch) = some s') : Inv s' := by
  simp only [step] at h
  split_ifs at h with hw
  rcases writeIter_spec s.pipe killed ch with ⟨hst, hfull, c, rfl, hpi⟩ | ⟨hst, hpi⟩
  · -- the byte is stored: it joins the buffer and the stream
    have hlt : s.pipe.count < pipeSize := lt_of_le_of_ne hs.count hfull
    rcases hr : writeIter s.pipe killed (some c) with ⟨pi, r⟩
    simp only [hr] at hst hpi
    subst hst hpi
    simp only [hr, Option.some.injEq] at h
    subst h
    refine ⟨?_, ?_, hs.got, hs.frees⟩
    · rw [Pipe.count_store _ _ hlt]
      exact hlt
    · simp only [Pipe.contents_store _ _ hlt, Option.toList_some, ← List.append_assoc, hs.fifo]
  · -- the pass returns or sleeps without touching the pipe
    rcases hr : writeIter s.pipe killed ch with ⟨pi, r⟩
    simp only [hr] at hst hpi
    subst hpi
    cases r with
    | stored => exact absurd rfl hst
    | full => simp [hr] at h
    | fail => simp only [hr, Option.some.injEq] at h; exact h ▸ hs
    | fault => simp only [hr, Option.some.injEq] at h; exact h ▸ hs

theorem Inv.read {killed : Bool} {n : ℤ} {ok : ℕ → Bool} (hs : Inv s)
    (h : step s (.read killed n ok) = some s') : Inv s' := by
  simp only [step] at h
  split_ifs at h with hr
  split at h
  · rename_i pi ret out hpr
    simp only [Option.some.injEq] at h
    subst h
    obtain ⟨m, hm, rfl, hout, -⟩ := piperead_spec hpr
    obtain ⟨hc, hcont, -, -, hro, hwo⟩ := s.pipe.advance_iterate m hm
    have hcount := hs.count
    have hm' : s.pipe.count - (Pipe.advance^[m] s.pipe).count = m := by omega
    refine ⟨?_, ?_, ?_, ?_⟩
    · dsimp only
      omega
    · -- the bytes taken are exactly those that left the buffer
      dsimp only
      rw [hm', hcont, List.append_assoc, List.take_append_drop, hs.fifo]
    · dsimp only
      rw [hm']
      exact hs.got.append hout
    · dsimp only
      rw [hro, hwo]
      exact hs.frees
  · cases h

theorem Inv.close {writable : Bool} (hs : Inv s) (h : step s (.close writable) = some s') :
    Inv s' := by
  simp only [step] at h
  by_cases hopen : ((writable && s.pipe.writeopen) || (!writable && s.pipe.readopen)) = true
  swap
  · rw [if_neg hopen] at h
    cases h
  rw [if_pos hopen, Option.some.injEq] at h
  subst h
  obtain ⟨hc, hcont⟩ := pipeclose_count s.pipe writable
  refine ⟨hc ▸ hs.count, hcont ▸ hs.fifo, hs.got, ?_⟩
  -- the end being closed was open, so the page had not been freed
  have h0 : s.frees = 0 := by
    rw [hs.frees]
    cases writable <;> simp_all
  dsimp only
  rw [h0]
  cases writable <;> cases hro : s.pipe.readopen <;> cases hwo : s.pipe.writeopen <;>
    simp_all [pipeclose]

theorem inv_step {a : Action} (hs : Inv s) (h : step s a = some s') : Inv s' := by
  cases a with
  | write killed ch => exact hs.write h
  | read killed n ok => exact hs.read h
  | close writable => exact hs.close h

theorem inv_of_reachable {data : ℕ → UInt8} (hs : Steps.Reachable step (init data) s) : Inv s :=
  Steps.Reachable.inv (inv_init data) (fun _ _ _ hi h => inv_step hi h) hs

end Steps

/-! ### Reads that do not fault -/

/-- The system in which every `copyout` of `piperead` succeeds. -/
def stepNoFault (s : Sys) : Action → Option Sys
  | .read killed n _ => step s (.read killed n fun _ => true)
  | a => step s a

theorem reachable_of_noFault {data : ℕ → UInt8} {s : Sys}
    (hs : Steps.Reachable stepNoFault (init data) s) : Steps.Reachable step (init data) s := by
  refine Steps.Reachable.mono (fun s a s' h => ?_) hs
  cases a with
  | read killed n ok => exact ⟨.read killed n fun _ => true, h⟩
  | write killed ch => exact ⟨.write killed ch, h⟩
  | close writable => exact ⟨.close writable, h⟩

section Streams

variable {s s' : Sys}

theorem step_write_streams {killed : Bool} {ch : Option UInt8}
    (h : step s (.write killed ch) = some s') : s'.got = s.got ∧ s'.taken = s.taken := by
  simp only [step] at h
  split_ifs at h
  split at h
  · cases h
    exact ⟨rfl, rfl⟩
  · cases h
  · cases h
    exact ⟨rfl, rfl⟩

theorem step_close_streams {writable : Bool} (h : step s (.close writable) = some s') :
    s'.got = s.got ∧ s'.taken = s.taken := by
  simp only [step] at h
  by_cases hopen : ((writable && s.pipe.writeopen) || (!writable && s.pipe.readopen)) = true
  · rw [if_pos hopen, Option.some.injEq] at h
    subst h
    exact ⟨rfl, rfl⟩
  · rw [if_neg hopen] at h
    cases h

/-- A read whose copies all succeed returns exactly the bytes it takes. -/
theorem got_eq_taken_read {killed : Bool} {n : ℤ} (hg : s.got = s.taken)
    (h : step s (.read killed n fun _ => true) = some s') : s'.got = s'.taken := by
  simp only [step] at h
  split_ifs at h
  split at h
  · rename_i pi ret out hpr
    simp only [Option.some.injEq] at h
    subst h
    obtain ⟨m, hm, rfl, -, hall⟩ := piperead_spec hpr
    obtain ⟨hc, -⟩ := s.pipe.advance_iterate m hm
    have hm' : s.pipe.count - (Pipe.advance^[m] s.pipe).count = m := by omega
    dsimp only
    rw [hm', hall fun _ => rfl, hg]
  · cases h

end Streams

/-- When no `copyout` fails, the bytes the reads returned, in completion order, are exactly the
bytes taken out of the buffer, and so a prefix of the bytes stored. -/
theorem got_prefix_of_noFault {data : ℕ → UInt8} {s : Sys}
    (hs : Steps.Reachable stepNoFault (init data) s) :
    s.got = s.taken ∧ List.IsPrefix s.got s.stored := by
  have hg : s.got = s.taken := by
    refine Steps.Reachable.inv (I := fun s => s.got = s.taken) rfl (fun s a s' hg h => ?_) hs
    cases a with
    | write killed ch =>
      obtain ⟨h1, h2⟩ := step_write_streams h
      rw [h1, h2]
      exact hg
    | read killed n ok => exact got_eq_taken_read hg h
    | close writable =>
      obtain ⟨h1, h2⟩ := step_close_streams h
      rw [h1, h2]
      exact hg
  exact ⟨hg, hg ▸ ⟨_, (inv_of_reachable (reachable_of_noFault hs)).fifo⟩⟩

/-- A run of `pipewrite`'s loop between two sleeps is a run of the system. -/
theorem run_pipewrite (killed : Bool) :
    ∀ (src : List (Option UInt8)) (i : ℕ) (s : Sys), s.pipe.writeopen = true →
      ∃ as s', Steps.run step s as = some s' ∧ s'.pipe = (pipewrite s.pipe killed i src).1
  | [], i, s, _ => ⟨[], s, rfl, rfl⟩
  | ch :: src, i, s, hw => by
    rcases writeIter_spec s.pipe killed ch with ⟨hst, -, c, rfl, hpi⟩ | ⟨hst, hpi⟩
    · -- the byte is stored and the loop goes on from the new state
      rcases hr : writeIter s.pipe killed (some c) with ⟨pi, r⟩
      simp only [hr] at hst hpi
      subst hst hpi
      have hstep : step s (.write killed (some c)) =
          some { s with pipe := s.pipe.store c, stored := s.stored ++ [c] } := by
        simp [step, hw, hr]
      obtain ⟨as, s', hrun, hpipe⟩ := run_pipewrite killed src (i + 1)
        { s with pipe := s.pipe.store c, stored := s.stored ++ [c] } hw
      refine ⟨.write killed (some c) :: as, s', ?_, ?_⟩
      · rw [Steps.run_cons, hstep, Option.bind_some, hrun]
      · rw [hpipe, pipewrite, hr]
    · -- the loop stops with the pipe as it was
      refine ⟨[], s, rfl, ?_⟩
      rcases hr : writeIter s.pipe killed ch with ⟨pi, r⟩
      simp only [hr] at hst hpi
      subst hpi
      cases r with
      | stored => exact absurd rfl hst
      | fail => simp [pipewrite, hr]
      | full => simp [pipewrite, hr]
      | fault => simp [pipewrite, hr]

/-! ### A read that faults -/

/-- A writer stores `a` and `b`; a read of one byte into a bad address returns `0` although the
buffer is not empty and the write end is open, and a second read returns `b`: the byte `a` is
gone, and the bytes the reads returned are not a prefix of those stored. -/
theorem piperead_fault_drops_byte :
    (∃ s, Steps.run step (init fun _ => 0) [.write false (some 97), .write false (some 98)] =
        some s ∧ s.pipe.writeopen = true ∧ s.pipe.contents = [97, 98] ∧
        (piperead s.pipe false 1 fun _ => false).map (fun r => (r.2.1, r.2.2, r.1.contents)) =
          some (0, [], [98])) ∧
      ∃ s', Steps.run step (init fun _ => 0) [.write false (some 97), .write false (some 98),
          .read false 1 (fun _ => false), .read false 1 (fun _ => true)] = some s' ∧
        s'.stored = [97, 98] ∧ s'.got = [98] ∧ ¬ List.IsPrefix s'.got s'.stored :=
  ⟨⟨_, rfl, rfl, by decide, by decide⟩, ⟨_, rfl, rfl, by decide, by decide⟩⟩

end Xv6.Pipes
