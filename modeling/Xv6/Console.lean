import Xv6.Lib.Ring
import Xv6.Lib.Run

/-!
# The console input buffer (`kernel/console.c`)

`cons.buf` is an `INPUT_BUF_SIZE`-byte ring with three free-running `uint` indices: the bytes
`[r, w)` are committed to readers, the bytes `[w, e)` are the line being edited.  `consoleintr`
handles one input character: erase (`^H`, DEL), kill the line (`^U`), or store it and commit the
line on a newline, a `^D` or a full buffer.  `consoleread` takes committed bytes one at a time
under the lock, and sleeps while there are none.

The index arithmetic is modulo `2^32`, as in C; `INPUT_BUF_SIZE` divides `2^32`, so the slots stay
right when the indices wrap, and the committed bytes are `Ring.window` over them.  The system
interleaves interrupts with the critical sections of the reads of any number of processes; ghost
state records the bytes committed, the bytes taken out of the buffer, and each completed read.

* `Inv`, `inv_of_reachable`: `w - r ≤ e - r ≤ INPUT_BUF_SIZE` through any wrap, and the bytes
  taken followed by the committed bytes still buffered are the bytes committed: erase and kill
  never reach a committed byte, and no committed byte is overwritten before it is read;
* `Lines`, `lines_of_reachable`: a read returns at most one line and no `^D`, and its value is
  the number of bytes it copied out, or `-1`;
* `consoleread_eof`, `readLoop_saves_eof`: a `^D` that follows some bytes is left in the buffer, and
  the next read returns `0` on it;
* `got_of_noFault`: for one reader whose copies all succeed and who is never killed, the bytes
  the reads returned are the committed bytes in order, each `^D` consumed as end of file;
* `consoleread_fault_drops_byte`: a failing `copyout` loses the byte it was given.
-/

namespace Xv6.Console

/-- `INPUT_BUF_SIZE`. -/
def inputBufSize : ℕ := 128

/-- `INPUT_BUF_SIZE` as the `uint` it is promoted to against the indices. -/
def inputBufSize32 : UInt32 := 128

/-- `C(x)`: control-`x`. -/
def ctrl (x : Char) : UInt8 := (x.toNat - '@'.toNat).toUInt8

/-- `cons`, less its lock. -/
structure Cons where
  /-- `buf[INPUT_BUF_SIZE]`: only the slots below `INPUT_BUF_SIZE` are used. -/
  buf : ℕ → UInt8
  /-- Read index. -/
  r : UInt32
  /-- Write index. -/
  w : UInt32
  /-- Edit index. -/
  e : UInt32

namespace Cons

/-- `cons.buf[cons.e++ % INPUT_BUF_SIZE] = c`. -/
def put (cons : Cons) (c : UInt8) : Cons :=
  { cons with
    buf := Function.update cons.buf (cons.e % inputBufSize32).toNat c
    e := cons.e + 1 }

/-- `cons.e--`. -/
def erase (cons : Cons) : Cons := { cons with e := cons.e - 1 }

/-- `cons.w = cons.e`. -/
def commit (cons : Cons) : Cons := { cons with w := cons.e }

/-- `cons.r++`. -/
def advance (cons : Cons) : Cons := { cons with r := cons.r + 1 }

/-- `cons.r--`. -/
def unread (cons : Cons) : Cons := { cons with r := cons.r - 1 }

end Cons

/-! ### `console.c` -/

/-- The `^U` loop of `consoleintr`: erase back to a newline, but never past `w`. -/
def killLine (cons : Cons) : Cons :=
  if cons.e ≠ cons.w ∧ cons.buf ((cons.e - 1) % inputBufSize32).toNat ≠ '\n'.toUInt8 then
    killLine cons.erase
  else cons
termination_by (cons.e - cons.w).toNat
decreasing_by
  rename_i h
  have hne : cons.e.toNat ≠ cons.w.toNat := fun h' => h.1 (UInt32.toNat_inj.1 h')
  have he := cons.e.toNat_lt
  have hw := cons.w.toNat_lt
  simp only [Cons.erase, UInt32.toNat_sub, UInt32.toNat_one]
  omega

/-- `consoleintr(c)`, less the echo and `procdump`. -/
def consoleintr (cons : Cons) (c : UInt8) : Cons :=
  if c = ctrl 'P' then cons
  else if c = ctrl 'U' then killLine cons
  else if c = ctrl 'H' ∨ c = 0x7f then
    if cons.e ≠ cons.w then cons.erase else cons
  else if c ≠ 0 ∧ cons.e - cons.r < inputBufSize32 then
    let c := if c = '\r'.toUInt8 then '\n'.toUInt8 else c
    let cons := cons.put c
    -- a whole line, an end of file or a full buffer is handed to the readers
    if c = '\n'.toUInt8 ∨ c = ctrl 'D' ∨ cons.e - cons.r = inputBufSize32 then cons.commit
    else cons
  else cons

theorem newline_ne_ctrl_d : '\n'.toUInt8 ≠ ctrl 'D' := by decide

/-- How a critical section of `consoleread` ends. -/
inductive ReadEnd
  /-- `consoleread` returns `v`. -/
  | ret (v : ℤ)
  /-- Asleep on `&cons.r`, with `n` bytes still wanted. -/
  | sleep (n : ℕ)
  deriving DecidableEq

/-- The loop of `consoleread` under the lock, with `n` bytes still wanted of `target`, until it
sleeps or returns: the console after it, how it ends and the bytes copied out.  `ok i` says
whether copying out byte `i` of the read succeeds. -/
def readLoop (killed : Bool) (ok : ℕ → Bool) (target : ℕ) :
    ℕ → Cons → Cons × ReadEnd × List UInt8
  | 0, cons => (cons, .ret target, [])
  | n + 1, cons =>
    if cons.r = cons.w then
      if killed then (cons, .ret (-1), []) else (cons, .sleep (n + 1), [])
    else
      let c := cons.buf (cons.r % inputBufSize32).toNat
      if c = ctrl 'D' then
        -- a `^D` after some bytes is saved for the next read
        ((if n + 1 < target then cons.advance.unread else cons.advance),
          .ret ((target - (n + 1) : ℕ) : ℤ), [])
      else if ok (target - (n + 1)) then
        if c = '\n'.toUInt8 then (cons.advance, .ret ((target - n : ℕ) : ℤ), [c])
        else
          let res := readLoop killed ok target n cons.advance
          (res.1, res.2.1, c :: res.2.2)
      else (cons.advance, .ret ((target - (n + 1) : ℕ) : ℤ), [])

/-- `consoleread(user_dst, dst, n)` from its start: `target = n`, and nothing is read when
`n ≤ 0`. -/
def consoleread (cons : Cons) (killed : Bool) (ok : ℕ → Bool) (n : ℤ) :
    Cons × ReadEnd × List UInt8 :=
  readLoop killed ok n.toNat n.toNat cons

/-! ### Indices modulo `2^32` -/

namespace Cons

/-- The committed bytes not yet read, `w - r` in `uint` arithmetic. -/
def ready (cons : Cons) : ℕ := (cons.w - cons.r).toNat

/-- The bytes in the buffer, committed or not, `e - r`. -/
def edit (cons : Cons) : ℕ := (cons.e - cons.r).toNat

/-- The committed bytes not yet read, oldest first. -/
def pending (cons : Cons) : List UInt8 :=
  Ring.window cons.buf inputBufSize cons.r.toNat cons.ready

/-- The bounds `consoleintr` keeps: `w - r ≤ e - r ≤ INPUT_BUF_SIZE`. -/
structure Ok (cons : Cons) : Prop where
  ready_le : cons.ready ≤ cons.edit
  edit_le : cons.edit ≤ inputBufSize

variable (cons : Cons)

theorem ready_eq : cons.ready = (2 ^ 32 - cons.r.toNat + cons.w.toNat) % 2 ^ 32 :=
  UInt32.toNat_sub _ _

theorem edit_eq : cons.edit = (2 ^ 32 - cons.r.toNat + cons.e.toNat) % 2 ^ 32 :=
  UInt32.toNat_sub _ _

/-- The write index follows the committed bytes, whether the indices have wrapped or not. -/
theorem w_mod : cons.w.toNat % inputBufSize = (cons.r.toNat + cons.ready) % inputBufSize := by
  have := cons.r.toNat_lt
  have := cons.w.toNat_lt
  rw [ready_eq, inputBufSize]
  omega

/-- The edit index follows all the buffered bytes. -/
theorem e_mod : cons.e.toNat % inputBufSize = (cons.r.toNat + cons.edit) % inputBufSize := by
  have := cons.r.toNat_lt
  have := cons.e.toNat_lt
  rw [edit_eq, inputBufSize]
  omega

theorem e_sub_w (h : cons.ready ≤ cons.edit) : (cons.e - cons.w).toNat = cons.edit - cons.ready := by
  have := cons.r.toNat_lt
  have := cons.w.toNat_lt
  have := cons.e.toNat_lt
  rw [ready_eq, edit_eq] at h
  rw [UInt32.toNat_sub, ready_eq, edit_eq]
  omega

/-- `consoleread`'s empty test. -/
theorem r_eq_w_iff : cons.r = cons.w ↔ cons.ready = 0 := by
  have := cons.r.toNat_lt
  have := cons.w.toNat_lt
  rw [← UInt32.toNat_inj, ready_eq]
  omega

/-- `consoleintr`'s room test. -/
theorem lt_iff : cons.e - cons.r < inputBufSize32 ↔ cons.edit < inputBufSize := by
  rw [UInt32.lt_iff_toNat_lt]
  rfl

/-- `consoleintr`'s full test. -/
theorem eq_iff : cons.e - cons.r = inputBufSize32 ↔ cons.edit = inputBufSize := by
  rw [← UInt32.toNat_inj]
  rfl

/-- Erasing is allowed exactly when there are uncommitted bytes. -/
theorem ne_iff (h : cons.ready ≤ cons.edit) : cons.e ≠ cons.w ↔ cons.ready < cons.edit := by
  have := cons.r.toNat_lt
  have := cons.w.toNat_lt
  have := cons.e.toNat_lt
  rw [ready_eq, edit_eq] at h ⊢
  rw [Ne, ← UInt32.toNat_inj]
  omega

/-! ### What each update does -/

@[simp] theorem put_ready (c : UInt8) : (cons.put c).ready = cons.ready := rfl
@[simp] theorem erase_ready : cons.erase.ready = cons.ready := rfl
@[simp] theorem commit_ready : cons.commit.ready = cons.edit := rfl
@[simp] theorem erase_pending : cons.erase.pending = cons.pending := rfl

theorem put_edit (c : UInt8) (h : cons.edit < inputBufSize) : (cons.put c).edit = cons.edit + 1 := by
  have := cons.r.toNat_lt
  have := cons.e.toNat_lt
  rw [edit_eq] at h ⊢
  rw [edit_eq]
  simp only [put, UInt32.toNat_add, UInt32.toNat_one]
  unfold inputBufSize at h
  omega

theorem erase_edit (h : cons.ready < cons.edit) : cons.erase.edit = cons.edit - 1 := by
  have := cons.r.toNat_lt
  have := cons.e.toNat_lt
  have h0 : cons.edit ≠ 0 := by omega
  rw [edit_eq] at h0 ⊢
  rw [edit_eq]
  simp only [erase, UInt32.toNat_sub, UInt32.toNat_one]
  omega

/-- Storing past the committed bytes, in a buffer that is not full, leaves them alone. -/
theorem put_pending (c : UInt8) (h : cons.Ok) (hlt : cons.edit < inputBufSize) :
    (cons.put c).pending = cons.pending := by
  have hidx : (cons.e % inputBufSize32).toNat = (cons.r.toNat + cons.edit) % inputBufSize := by
    rw [UInt32.toNat_mod, ← e_mod]
    rfl
  unfold pending
  simp only [put_ready]
  show Ring.window (Function.update cons.buf (cons.e % inputBufSize32).toNat c) _ _ _ = _
  rw [hidx]
  exact Ring.window_update_of_le cons.buf h.ready_le hlt c

/-- Committing appends the edited line to the committed bytes. -/
theorem commit_pending (h : cons.ready ≤ cons.edit) :
    cons.commit.pending =
      cons.pending ++ Ring.window cons.buf inputBufSize cons.w.toNat (cons.e - cons.w).toNat := by
  have hw : cons.w.toNat % inputBufSize = (cons.r.toNat + cons.ready) % inputBufSize := w_mod cons
  unfold pending
  rw [commit_ready, e_sub_w cons h, Ring.window_congr cons.buf hw, ← Ring.window_add,
    Nat.add_sub_cancel' h]
  rfl

theorem advance_ready (h : cons.ready ≠ 0) : cons.advance.ready = cons.ready - 1 := by
  have := cons.r.toNat_lt
  have := cons.w.toNat_lt
  rw [ready_eq] at h ⊢
  rw [ready_eq]
  simp only [advance, UInt32.toNat_add, UInt32.toNat_one]
  omega

theorem advance_edit (h : cons.edit ≠ 0) : cons.advance.edit = cons.edit - 1 := by
  have := cons.r.toNat_lt
  have := cons.e.toNat_lt
  rw [edit_eq] at h ⊢
  rw [edit_eq]
  simp only [advance, UInt32.toNat_add, UInt32.toNat_one]
  omega

/-- Reading takes the oldest committed byte. -/
theorem pending_advance (h : cons.ready ≠ 0) :
    cons.pending = cons.buf (cons.r % inputBufSize32).toNat :: cons.advance.pending := by
  obtain ⟨k, hk⟩ : ∃ k, cons.ready = k + 1 := ⟨cons.ready - 1, by omega⟩
  have hmod : (cons.r.toNat + 1) % inputBufSize = cons.advance.r.toNat % inputBufSize := by
    simp only [advance, UInt32.toNat_add, UInt32.toNat_one]
    rw [Nat.mod_mod_of_dvd _ (by decide : inputBufSize ∣ 2 ^ 32)]
  unfold pending
  rw [hk, Ring.window_succ, cons.advance_ready h, hk, Nat.add_sub_cancel, UInt32.toNat_mod,
    Ring.window_congr cons.buf hmod]
  rfl

@[simp] theorem advance_unread : cons.advance.unread = cons := by
  simp [advance, unread]

theorem advance_ok (h : cons.Ok) (h0 : cons.ready ≠ 0) : cons.advance.Ok := by
  have h1 := cons.advance_ready h0
  have h2 := cons.advance_edit (by have := h.ready_le; omega)
  exact ⟨by have := h.ready_le; omega, by have := h.edit_le; omega⟩

/-- Reading `m` committed bytes drops them. -/
theorem advance_iterate :
    ∀ (c : Cons), c.Ok → ∀ m, m ≤ c.ready → (Cons.advance^[m] c).ready = c.ready - m ∧
      (Cons.advance^[m] c).pending = c.pending.drop m ∧ (Cons.advance^[m] c).Ok
  | c, h, 0, _ => ⟨rfl, rfl, h⟩
  | c, h, m + 1, hm => by
    have h0 : c.ready ≠ 0 := by omega
    obtain ⟨hr, hp, hok⟩ := advance_iterate c.advance (c.advance_ok h h0) m
      (by rw [c.advance_ready h0]; omega)
    rw [Function.iterate_succ_apply]
    refine ⟨by rw [hr, c.advance_ready h0]; omega, ?_, hok⟩
    rw [hp, c.pending_advance h0, List.drop_succ_cons]

end Cons

/-! ### What `consoleintr` does -/

/-- Kill line erases only uncommitted bytes. -/
theorem killLine_spec (cons : Cons) (h : cons.Ok) :
    (killLine cons).Ok ∧ (killLine cons).buf = cons.buf ∧ (killLine cons).r = cons.r ∧
      (killLine cons).w = cons.w := by
  fun_induction killLine cons with
  | case1 cons hc ih =>
    -- one byte of the line erased: still at or above `w`
    have hlt : cons.ready < cons.edit := (cons.ne_iff h.ready_le).1 hc.1
    have hok : cons.erase.Ok := by
      have := cons.erase_edit hlt
      exact ⟨by simp only [Cons.erase_ready]; omega, by have := h.edit_le; omega⟩
    exact ih hok
  | case2 cons _ => exact ⟨h, rfl, rfl, rfl⟩

/-- `consoleintr` keeps the bounds and the read index, and at most appends the edited line to
the committed bytes. -/
theorem consoleintr_spec {cons : Cons} (h : cons.Ok) (c : UInt8) :
    (consoleintr cons c).Ok ∧ (consoleintr cons c).r = cons.r ∧
      (consoleintr cons c).pending = cons.pending ++
        Ring.window (consoleintr cons c).buf inputBufSize cons.w.toNat
          ((consoleintr cons c).w - cons.w).toNat := by
  -- every branch but a commit leaves `w`, and the committed bytes, as they were
  have hsame : ∀ cons' : Cons, cons'.Ok → cons'.r = cons.r → cons'.w = cons.w →
      cons'.pending = cons.pending →
      cons'.Ok ∧ cons'.r = cons.r ∧ cons'.pending = cons.pending ++
        Ring.window cons'.buf inputBufSize cons.w.toNat (cons'.w - cons.w).toNat := by
    intro cons' hok hr hw hp
    rw [hw, UInt32.sub_self, UInt32.toNat_zero, Ring.window_zero, List.append_nil]
    exact ⟨hok, hr, hp⟩
  unfold consoleintr
  dsimp only
  -- the byte stored, after `'\r'` becomes `'\n'`
  generalize (if c = '\r'.toUInt8 then '\n'.toUInt8 else c) = x
  split_ifs with hP hU hH hne hput hcommit
  · exact hsame cons h rfl rfl rfl
  · obtain ⟨hok, hb, hr, hw⟩ := killLine_spec cons h
    exact hsame _ hok hr hw (by simp only [Cons.pending, Cons.ready, hb, hr, hw])
  · have hlt : cons.ready < cons.edit := (cons.ne_iff h.ready_le).1 hne
    have hok : cons.erase.Ok := by
      have := cons.erase_edit hlt
      exact ⟨by simp only [Cons.erase_ready]; omega, by have := h.edit_le; omega⟩
    exact hsame _ hok rfl rfl rfl
  · exact hsame cons h rfl rfl rfl
  · -- store, then commit: the line joins the committed bytes
    have hlt : cons.edit < inputBufSize := (cons.lt_iff).1 hput.2
    have hedit := cons.put_edit x hlt
    have hle : (cons.put x).ready ≤ (cons.put x).edit := by
      rw [Cons.put_ready, hedit]
      have := h.ready_le
      omega
    refine ⟨⟨?_, ?_⟩, rfl, ?_⟩
    · simp only [Cons.commit_ready]
      exact le_refl _
    · simp only [Cons.commit, Cons.edit] at hedit ⊢
      exact hedit ▸ hlt
    · rw [Cons.commit_pending _ hle, cons.put_pending x h hlt]
      rfl
  · -- store without a commit
    have hlt : cons.edit < inputBufSize := (cons.lt_iff).1 hput.2
    have hedit := cons.put_edit x hlt
    refine hsame _ ⟨?_, ?_⟩ rfl rfl (cons.put_pending x h hlt)
    · rw [Cons.put_ready, hedit]
      have := h.ready_le
      omega
    · rw [hedit]
      exact hlt
  · exact hsame cons h rfl rfl rfl

/-! ### What a read does -/

/-- A critical section of a read takes `m` committed bytes out of the buffer and copies out
those that are not `^D`, up to the first copy that fails. -/
theorem readLoop_spec (killed : Bool) (ok : ℕ → Bool) (target : ℕ) :
    ∀ (n : ℕ) (cons : Cons), ∃ m ≤ cons.ready,
      (readLoop killed ok target n cons).1 = Cons.advance^[m] cons ∧
      List.Sublist (readLoop killed ok target n cons).2.2 (cons.pending.take m) ∧
      ((∀ j, ok j = true) →
        (readLoop killed ok target n cons).2.2 = (cons.pending.take m).filter (· != ctrl 'D'))
  | 0, cons => ⟨0, Nat.zero_le _, rfl, List.nil_sublist _, fun _ => rfl⟩
  | n + 1, cons => by
    by_cases he : cons.r = cons.w
    · -- nothing committed: return or sleep, taking nothing
      refine ⟨0, Nat.zero_le _, ?_⟩
      cases killed <;> simp [readLoop, he]
    have h0 : cons.ready ≠ 0 := fun h => he ((cons.r_eq_w_iff).2 h)
    have hp := cons.pending_advance h0
    have hone : cons.pending.take 1 = [cons.buf (cons.r % inputBufSize32).toNat] := by
      rw [hp, List.take_succ_cons, List.take_zero]
    by_cases hD : cons.buf (cons.r % inputBufSize32).toNat = ctrl 'D'
    · by_cases hlt : n + 1 < target
      · -- the `^D` is put back
        refine ⟨0, Nat.zero_le _, ?_⟩
        simp only [readLoop, he, hD, hlt, if_false, if_true, Cons.advance_unread]
        exact ⟨rfl, List.nil_sublist _, fun _ => by simp⟩
      · -- the `^D` is taken, and ends the read
        refine ⟨1, by omega, ?_⟩
        simp only [readLoop, he, hD, hlt, if_false, if_true, hone]
        exact ⟨rfl, List.nil_sublist _, fun _ => by simp⟩
    by_cases hok : ok (target - (n + 1)) = true
    · by_cases hn : cons.buf (cons.r % inputBufSize32).toNat = '\n'.toUInt8
      · -- a newline is copied and ends the read
        refine ⟨1, by omega, ?_⟩
        simp only [readLoop, he, hn, newline_ne_ctrl_d, hok, if_false, if_true, hone]
        refine ⟨rfl, List.Sublist.refl _, fun _ => ?_⟩
        simp only [List.filter_cons, newline_ne_ctrl_d, bne_iff_ne, ne_eq, not_false_eq_true,
          if_true, List.filter_nil]
      · -- the byte is copied and the loop goes on
        obtain ⟨m, hm, h1, h2, h3⟩ := readLoop_spec killed ok target n cons.advance
        refine ⟨m + 1, by rw [cons.advance_ready h0] at hm; omega, ?_⟩
        simp only [readLoop, he, hD, hok, hn, if_false, if_true]
        rw [hp, List.take_succ_cons]
        refine ⟨by rw [h1, Function.iterate_succ_apply], h2.cons_cons _, fun hall => ?_⟩
        rw [h3 hall]
        simp only [List.filter_cons, hD, bne_iff_ne, ne_eq, not_false_eq_true, if_true]
    · -- the byte is taken and its copy fails
      refine ⟨1, by omega, ?_⟩
      simp only [readLoop, he, hD, hok, if_false]
      exact ⟨rfl, List.nil_sublist _, fun hall => absurd (hall _) hok⟩

/-- How a critical section that began with `n` bytes wanted of `target` may end, given the bytes
it copied out: with `-1` when killed, with the number of bytes the read has copied, or asleep
with the rest still wanted and no newline copied. -/
def Ends (killed : Bool) (target n : ℕ) (out : List UInt8) : ReadEnd → Prop
  | .ret v => (v = -1 ∧ killed = true) ∨ v = ((target - n + out.length : ℕ) : ℤ)
  | .sleep n' => n' + out.length = n ∧ '\n'.toUInt8 ∉ out

/-- A critical section copies no `^D`, and a newline only as its last byte. -/
theorem readLoop_ends (killed : Bool) (ok : ℕ → Bool) (target : ℕ) :
    ∀ (n : ℕ) (cons : Cons), n ≤ target →
      Ends killed target n (readLoop killed ok target n cons).2.2
          (readLoop killed ok target n cons).2.1 ∧
        ctrl 'D' ∉ (readLoop killed ok target n cons).2.2 ∧
        '\n'.toUInt8 ∉ (readLoop killed ok target n cons).2.2.dropLast
  | 0, cons, _ => ⟨Or.inr (by simp [readLoop]), List.not_mem_nil, List.not_mem_nil⟩
  | n + 1, cons, hn => by
    by_cases he : cons.r = cons.w
    · cases killed <;> simp [readLoop, he, Ends]
    by_cases hD : cons.buf (cons.r % inputBufSize32).toNat = ctrl 'D'
    · -- the read ends on the `^D`, whether it is put back or not
      have hend : (readLoop killed ok target (n + 1) cons).2.1 = .ret ((target - (n + 1) : ℕ) : ℤ) ∧
          (readLoop killed ok target (n + 1) cons).2.2 = [] := by
        by_cases hlt : n + 1 < target <;>
          simp only [readLoop, he, hD, hlt, if_false, if_true, and_self]
      rw [hend.1, hend.2]
      exact ⟨Or.inr (by simp), List.not_mem_nil, List.not_mem_nil⟩
    by_cases hok : ok (target - (n + 1)) = true
    · by_cases hnl : cons.buf (cons.r % inputBufSize32).toNat = '\n'.toUInt8
      · simp only [readLoop, he, hnl, newline_ne_ctrl_d, hok, if_false, if_true]
        refine ⟨Or.inr (by simp only [List.length_singleton]; omega), ?_, by simp⟩
        rw [List.mem_singleton]
        exact fun h => newline_ne_ctrl_d h.symm
      · obtain ⟨hend, hnD, hnl'⟩ := readLoop_ends killed ok target n cons.advance (by omega)
        simp only [readLoop, he, hD, hok, hnl, if_false, if_true]
        refine ⟨?_, ?_, ?_⟩
        · -- one more byte counted on top of the rest of the loop
          have hcount : target - n + (readLoop killed ok target n cons.advance).2.2.length =
              target - (n + 1) + ((readLoop killed ok target n cons.advance).2.2.length + 1) := by
            omega
          revert hend
          cases (readLoop killed ok target n cons.advance).2.1 with
          | ret v =>
            simp only [Ends, List.length_cons, hcount]
            exact id
          | sleep n' =>
            simp only [Ends, List.length_cons, List.mem_cons, not_or]
            exact fun h => ⟨by omega, fun h' => hnl h'.symm, h.2⟩
        · rw [List.mem_cons, not_or]
          exact ⟨fun h => hD h.symm, hnD⟩
        · intro hmem
          rcases List.eq_nil_or_concat (readLoop killed ok target n cons.advance).2.2 with hnil | hne
          · simp [hnil] at hmem
          · rw [List.dropLast_cons_of_ne_nil (by grind)] at hmem
            rcases List.mem_cons.1 hmem with h | h
            · exact hnl h.symm
            · exact hnl' h
    · simp only [readLoop, he, hD, hok, if_false]
      exact ⟨Or.inr (by simp), List.not_mem_nil, List.not_mem_nil⟩

/-- A read that meets a `^D` as its first byte returns `0` and consumes it. -/
theorem consoleread_eof (killed : Bool) (ok : ℕ → Bool) {n : ℤ} (hn : 0 < n) {cons : Cons}
    (he : cons.r ≠ cons.w) (hD : cons.buf (cons.r % inputBufSize32).toNat = ctrl 'D') :
    consoleread cons killed ok n = (cons.advance, .ret 0, []) := by
  obtain ⟨k, hk⟩ : ∃ k, n.toNat = k + 1 := ⟨n.toNat - 1, by omega⟩
  simp only [consoleread, hk, readLoop, he, hD, if_false, if_true, Nat.lt_irrefl, Nat.sub_self,
    Nat.cast_zero]

/-- A `^D` met after some bytes of a read is left in the buffer, where it is the next byte to
read. -/
theorem readLoop_saves_eof (killed : Bool) (ok : ℕ → Bool) {target n : ℕ} {cons : Cons}
    (he : cons.r ≠ cons.w) (hD : cons.buf (cons.r % inputBufSize32).toNat = ctrl 'D')
    (hlt : n + 1 < target) :
    readLoop killed ok target (n + 1) cons = (cons, .ret ((target - (n + 1) : ℕ) : ℤ), []) := by
  simp only [readLoop, he, hD, hlt, if_false, if_true, Cons.advance_unread]

/-! ### The system -/

/-- A call of `consoleread` asleep in its wait. -/
structure Reader where
  target : ℕ
  /-- The bytes still wanted. -/
  n : ℕ
  /-- The bytes copied out so far. -/
  out : List UInt8

/-- The console, the calls of `consoleread` in progress, and the ghost record of the streams. -/
structure Sys (ι : Type) where
  cons : Cons
  /-- Every byte committed to the readers, in order. -/
  committed : List UInt8
  /-- Every byte `consoleread` took out of the buffer for good, in order. -/
  taken : List UInt8
  /-- Each completed `consoleread`: its return value and the bytes it copied out. -/
  reads : List (ℤ × List UInt8)
  /-- The call of `consoleread` each process is asleep in. -/
  reading : ι → Option Reader

/-- One critical section under `cons.lock`: an interrupt, a read from its start, or a read
woken in its wait. -/
inductive Action (ι : Type)
  | intr (c : UInt8)
  | read (p : ι) (killed : Bool) (n : ℤ) (ok : ℕ → Bool)
  | resume (p : ι) (killed : Bool) (ok : ℕ → Bool)

variable {ι : Type}

/-- `consoleintr(c)`, and the bytes it commits. -/
def Sys.intr (s : Sys ι) (c : UInt8) : Sys ι :=
  let cons := consoleintr s.cons c
  { s with
    cons := cons
    committed :=
      s.committed ++ Ring.window cons.buf inputBufSize s.cons.w.toNat (cons.w - s.cons.w).toNat }

variable [DecidableEq ι]

/-- A critical section of the read `rd` of process `p`. -/
def Sys.readSection (s : Sys ι) (p : ι) (rd : Reader) (killed : Bool) (ok : ℕ → Bool) : Sys ι :=
  let res := readLoop killed ok rd.target rd.n s.cons
  let s' := { s with
    cons := res.1
    taken := s.taken ++ s.cons.pending.take (s.cons.ready - res.1.ready) }
  match res.2.1 with
  | .ret v =>
    { s' with
      reads := s.reads ++ [(v, rd.out ++ res.2.2)]
      reading := Function.update s.reading p none }
  | .sleep n => { s' with reading := Function.update s.reading p (some ⟨rd.target, n, rd.out ++ res.2.2⟩) }

/-- One step; `none` for a read by a process already in one, or a wakeup of one that is not. -/
def step (s : Sys ι) : Action ι → Option (Sys ι)
  | .intr c => some (s.intr c)
  | .read p killed n ok =>
    if s.reading p = none then some (s.readSection p ⟨n.toNat, n.toNat, []⟩ killed ok) else none
  | .resume p killed ok =>
    match s.reading p with
    | some rd => some (s.readSection p rd killed ok)
    | none => none

/-- The console after `consoleinit`, whatever its buffer holds. -/
def init (buf : ℕ → UInt8) : Sys ι := ⟨⟨buf, 0, 0, 0⟩, [], [], [], fun _ => none⟩

theorem readSection_cons (s : Sys ι) (p : ι) (rd : Reader) (killed : Bool) (ok : ℕ → Bool) :
    (s.readSection p rd killed ok).cons = (readLoop killed ok rd.target rd.n s.cons).1 ∧
      (s.readSection p rd killed ok).taken = s.taken ++
        s.cons.pending.take (s.cons.ready - (readLoop killed ok rd.target rd.n s.cons).1.ready) ∧
      (s.readSection p rd killed ok).committed = s.committed := by
  unfold Sys.readSection
  dsimp only
  split <;> exact ⟨rfl, rfl, rfl⟩

/-! ### The buffer invariant -/

/-- The invariant of the console. -/
structure Inv (s : Sys ι) : Prop where
  /-- `w - r ≤ e - r ≤ INPUT_BUF_SIZE`, modulo `2^32`. -/
  ok : s.cons.Ok
  /-- The bytes taken, then the committed bytes still buffered, are the bytes committed: none
  erased, overwritten, lost or reordered inside the buffer. -/
  fifo : s.taken ++ s.cons.pending = s.committed

omit [DecidableEq ι] in
theorem inv_init (buf : ℕ → UInt8) : Inv (init (ι := ι) buf) where
  ok := ⟨by simp [init, Cons.ready, Cons.edit], by simp [init, Cons.edit, inputBufSize]⟩
  fifo := by simp [init, Cons.pending, Cons.ready, Ring.window]

section Steps

variable {s s' : Sys ι}

omit [DecidableEq ι] in
theorem Inv.intr (hs : Inv s) (c : UInt8) : Inv (s.intr c) := by
  obtain ⟨hok, -, hp⟩ := consoleintr_spec hs.ok c
  refine ⟨hok, ?_⟩
  simp only [Sys.intr]
  rw [hp, ← List.append_assoc, hs.fifo]

theorem Inv.readSection (hs : Inv s) (p : ι) (rd : Reader) (killed : Bool) (ok : ℕ → Bool) :
    Inv (s.readSection p rd killed ok) := by
  obtain ⟨hc, ht, hcm⟩ := readSection_cons s p rd killed ok
  obtain ⟨m, hm, h1, -, -⟩ := readLoop_spec killed ok rd.target rd.n s.cons
  obtain ⟨hr, hp, hok⟩ := Cons.advance_iterate s.cons hs.ok m hm
  have hm' : s.cons.ready - (readLoop killed ok rd.target rd.n s.cons).1.ready = m := by
    rw [h1, hr]
    omega
  refine ⟨hc ▸ h1 ▸ hok, ?_⟩
  -- the bytes that left the buffer are exactly those appended to `taken`
  rw [ht, hm', hc, h1, hp, hcm, List.append_assoc, List.take_append_drop, hs.fifo]

theorem inv_step {a : Action ι} (hs : Inv s) (h : step s a = some s') : Inv s' := by
  cases a with
  | intr c =>
    cases h
    exact hs.intr c
  | read p killed n ok =>
    simp only [step] at h
    split_ifs at h
    cases h
    exact hs.readSection p _ killed ok
  | resume p killed ok =>
    simp only [step] at h
    split at h
    · cases h
      exact hs.readSection p _ killed ok
    · cases h

/-- In every reachable state `w - r ≤ e - r ≤ INPUT_BUF_SIZE` through any wrap of the indices,
and the committed bytes come out of the buffer as they went in. -/
theorem inv_of_reachable {buf : ℕ → UInt8} (hs : Steps.Reachable step (init buf) s) : Inv s :=
  Steps.Reachable.inv (inv_init buf) (fun _ _ _ hi h => inv_step hi h) hs

end Steps

/-! ### What the reads return -/

theorem not_mem_dropLast_append {x : UInt8} {l l' : List UInt8} (h : x ∉ l) (h' : x ∉ l'.dropLast) :
    x ∉ (l ++ l').dropLast := by
  rcases List.eq_nil_or_concat l' with rfl | ⟨l'', y, rfl⟩
  · rw [List.append_nil]
    exact fun hx => h (List.dropLast_subset l hx)
  · rw [List.concat_eq_append] at h' ⊢
    rw [← List.append_assoc, List.dropLast_concat, List.mem_append, not_or]
    rw [List.dropLast_concat] at h'
    exact ⟨h, h'⟩

/-- What the completed reads returned and what the sleeping ones have copied: no `^D`, a newline
only as the last byte, and as value the number of bytes copied out, or `-1`. -/
structure Lines (s : Sys ι) : Prop where
  reads : ∀ r ∈ s.reads,
    ctrl 'D' ∉ r.2 ∧ '\n'.toUInt8 ∉ r.2.dropLast ∧ (r.1 = -1 ∨ r.1 = r.2.length)
  reading : ∀ p rd, s.reading p = some rd →
    rd.n + rd.out.length = rd.target ∧ ctrl 'D' ∉ rd.out ∧ '\n'.toUInt8 ∉ rd.out

/-- The reader a read starts with. -/
theorem reader_start (n : ℤ) :
    let rd : Reader := ⟨n.toNat, n.toNat, []⟩
    rd.n + rd.out.length = rd.target ∧ ctrl 'D' ∉ rd.out ∧ '\n'.toUInt8 ∉ rd.out :=
  ⟨rfl, List.not_mem_nil, List.not_mem_nil⟩

section Lines

variable {s : Sys ι}

theorem Lines.readSection (hs : Lines s) {p : ι} {rd : Reader}
    (hrd : rd.n + rd.out.length = rd.target ∧ ctrl 'D' ∉ rd.out ∧ '\n'.toUInt8 ∉ rd.out)
    (killed : Bool) (ok : ℕ → Bool) : Lines (s.readSection p rd killed ok) := by
  obtain ⟨hends, hD, hnl⟩ := readLoop_ends killed ok rd.target rd.n s.cons (by omega)
  unfold Sys.readSection
  dsimp only
  split
  · -- the read returns: one more completed read, and `p` no longer in one
    rename_i v hv
    rw [hv] at hends
    refine ⟨fun r hr => ?_, fun q rd' hq => ?_⟩
    · rcases List.mem_append.1 hr with hr | hr
      · exact hs.reads r hr
      · rw [List.mem_singleton] at hr
        subst hr
        refine ⟨?_, not_mem_dropLast_append hrd.2.2 hnl, ?_⟩
        · rw [List.mem_append, not_or]
          exact ⟨hrd.2.1, hD⟩
        · rcases hends with ⟨h, -⟩ | h
          · exact Or.inl h
          · have h2 := hrd.1
            refine Or.inr (h.trans ?_)
            simp only [List.length_append]
            omega
    · dsimp only at hq
      by_cases hqp : q = p
      · subst hqp
        simp at hq
      · rw [Function.update_of_ne hqp] at hq
        exact hs.reading q rd' hq
  · -- the read sleeps with what it has copied so far
    rename_i n hn
    rw [hn] at hends
    refine ⟨hs.reads, fun q rd' hq => ?_⟩
    dsimp only at hq
    by_cases hqp : q = p
    · subst hqp
      rw [Function.update_self, Option.some.injEq] at hq
      subst hq
      refine ⟨?_, ?_, ?_⟩
      · have h1 := hends.1
        have h2 := hrd.1
        simp only [List.length_append]
        omega
      · rw [List.mem_append, not_or]
        exact ⟨hrd.2.1, hD⟩
      · rw [List.mem_append, not_or]
        exact ⟨hrd.2.2, hends.2⟩
    · rw [Function.update_of_ne hqp] at hq
      exact hs.reading q rd' hq

theorem lines_step {a : Action ι} {s' : Sys ι} (hs : Lines s) (h : step s a = some s') :
    Lines s' := by
  cases a with
  | intr c =>
    cases h
    exact ⟨hs.reads, hs.reading⟩
  | read p killed n ok =>
    simp only [step] at h
    split_ifs at h
    cases h
    exact hs.readSection (reader_start n) killed ok
  | resume p killed ok =>
    simp only [step] at h
    split at h
    · rename_i rd hrd
      cases h
      exact hs.readSection (hs.reading p rd hrd) killed ok
    · cases h

/-- Every read returns at most one line and no `^D`, and its value is the number of bytes it
copied out, or `-1`. -/
theorem lines_of_reachable {buf : ℕ → UInt8} (hs : Steps.Reachable step (init buf) s) :
    Lines s :=
  Steps.Reachable.inv (I := Lines) ⟨fun _ h => absurd h List.not_mem_nil, fun _ _ h => by cases h⟩
    (fun _ _ _ hi h => lines_step hi h) hs

end Lines

/-! ### One reader whose copies all succeed -/

/-- The system of one reading process whose copies all succeed and which is never killed. -/
def stepNoFault (s : Sys Unit) : Action Unit → Option (Sys Unit)
  | .read p _ n _ => step s (.read p false n fun _ => true)
  | .resume p _ _ => step s (.resume p false fun _ => true)
  | a => step s a

theorem step_of_noFault {s s' : Sys Unit} {a : Action Unit} (h : stepNoFault s a = some s') :
    ∃ a', step s a' = some s' := by
  cases a with
  | intr c => exact ⟨.intr c, h⟩
  | read p killed n ok => exact ⟨.read p false n fun _ => true, h⟩
  | resume p killed ok => exact ⟨.resume p false fun _ => true, h⟩

/-- The bytes the completed reads returned, then those the read in progress has copied. -/
def Sys.got (s : Sys Unit) : List UInt8 :=
  (s.reads.map Prod.snd).flatten ++ ((s.reading ()).map Reader.out).getD []

/-- What a critical section adds to the bytes returned. -/
theorem got_readSection (s : Sys Unit) {rd : Reader}
    (hrd : ((s.reading ()).map Reader.out).getD [] = rd.out) (killed : Bool) (ok : ℕ → Bool) :
    (s.readSection () rd killed ok).got =
      s.got ++ (readLoop killed ok rd.target rd.n s.cons).2.2 := by
  unfold Sys.readSection Sys.got
  dsimp only
  rw [hrd]
  split <;> simp

/-- The stream invariant of one reader that never faults: what the reads returned is what they
took, less the `^D`s, and no read returned `-1`. -/
structure Got (s : Sys Unit) : Prop where
  got : s.got = s.taken.filter (· != ctrl 'D')
  nonneg : ∀ r ∈ s.reads, 0 ≤ r.1

theorem Got.readSection {s : Sys Unit} (hs : Got s) (hinv : Inv s) {rd : Reader}
    (hrd : ((s.reading ()).map Reader.out).getD [] = rd.out) (hn : rd.n ≤ rd.target) :
    Got (s.readSection () rd false fun _ => true) := by
  obtain ⟨-, ht, -⟩ := readSection_cons s () rd false fun _ => true
  obtain ⟨m, hm, h1, -, h3⟩ := readLoop_spec false (fun _ => true) rd.target rd.n s.cons
  obtain ⟨hr, -, -⟩ := Cons.advance_iterate s.cons hinv.ok m hm
  have hm' : s.cons.ready - (readLoop false (fun _ => true) rd.target rd.n s.cons).1.ready = m := by
    rw [h1, hr]
    omega
  refine ⟨?_, fun r hr' => ?_⟩
  · -- the bytes copied are those taken, less the `^D`s
    rw [got_readSection s hrd, ht, hm', hs.got, h3 fun _ => rfl, List.filter_append]
  · unfold Sys.readSection at hr'
    dsimp only at hr'
    split at hr'
    · rename_i v hv
      rcases List.mem_append.1 hr' with hr' | hr'
      · exact hs.nonneg r hr'
      · -- a read that is not killed returns a count
        rw [List.mem_singleton] at hr'
        subst hr'
        have hends := (readLoop_ends false (fun _ => true) rd.target rd.n s.cons hn).1
        rw [hv] at hends
        rcases hends with ⟨-, h⟩ | h
        · cases h
        · rw [h]
          exact Int.natCast_nonneg _
    · exact hs.nonneg r hr'


theorem got_step {s s' : Sys Unit} {a : Action Unit} (hs : Got s) (hinv : Inv s) (hl : Lines s)
    (h : stepNoFault s a = some s') : Got s' := by
  cases a with
  | intr c =>
    -- an interrupt changes neither the reads nor what they took
    cases h
    exact ⟨hs.got, hs.nonneg⟩
  | read p killed n ok =>
    cases p
    simp only [stepNoFault, step] at h
    split_ifs at h with hnone
    cases h
    exact hs.readSection hinv (by rw [hnone]; rfl) (le_refl _)
  | resume p killed ok =>
    cases p
    simp only [stepNoFault, step] at h
    split at h
    · rename_i rd hrd
      cases h
      have hn := (hl.reading () rd hrd).1
      exact hs.readSection hinv (by rw [hrd]; rfl) (by omega)
    · cases h

/-- One reader whose copies all succeed and which is never killed: the bytes its reads
returned, followed by those the read in progress has copied, are the bytes taken out of the
buffer less the `^D`s, the bytes taken are a prefix of those committed, and every read returns
the number of bytes it copied out.  So each read returns the next committed bytes, and each `^D`
is consumed as an end of file. -/
theorem got_of_noFault {buf : ℕ → UInt8} {s : Sys Unit}
    (hs : Steps.Reachable stepNoFault (init buf) s) :
    s.got = s.taken.filter (· != ctrl 'D') ∧ s.taken <+: s.committed ∧
      ∀ r ∈ s.reads, r.1 = r.2.length := by
  have hall : Got s ∧ Inv s ∧ Lines s := by
    refine Steps.Reachable.inv (I := fun s => Got s ∧ Inv s ∧ Lines s)
      ⟨⟨rfl, fun _ h => absurd h List.not_mem_nil⟩, inv_init buf,
        ⟨fun _ h => absurd h List.not_mem_nil, fun _ _ h => by cases h⟩⟩
      (fun s a s' hi h => ?_) hs
    obtain ⟨a', h'⟩ := step_of_noFault h
    exact ⟨got_step hi.1 hi.2.1 hi.2.2 h, inv_step hi.2.1 h', lines_step hi.2.2 h'⟩
  obtain ⟨hg, hinv, hl⟩ := hall
  refine ⟨hg.got, ⟨_, hinv.fifo⟩, fun r hr => ?_⟩
  rcases (hl.reads r hr).2.2 with h | h
  · have := hg.nonneg r hr
    omega
  · exact h

/-! ### A copy that fails -/

/-- A line `a` is typed and committed; a read of one byte into a bad address returns `0`, as at
an end of file, though no `^D` was typed; the next read returns the newline.  The byte `a` is
lost: the bytes the reads returned are not the bytes committed. -/
theorem consoleread_fault_drops_byte :
    ∃ s, Steps.run step (init (ι := Unit) fun _ => 0)
        [.intr 97, .intr 13, .read () false 1 (fun _ => false), .read () false 1 (fun _ => true)] =
        some s ∧
      s.committed = [97, 10] ∧ s.reads = [(0, []), (1, [10])] ∧ s.cons.pending = [] :=
  ⟨_, rfl, by decide, by decide, by decide⟩

end Xv6.Console
