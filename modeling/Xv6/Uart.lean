import Xv6.Lib.Ring
import Xv6.Lib.Run

/-!
# The UART transmit ring (`kernel/uart.c`)

`uart_tx_buf` is a ring of `UART_TX_BUF_SIZE` characters with two free-running `uint64`
indices: the characters from `uart_tx_r` to `uart_tx_w` wait to be sent.  `uartputc` stores a
character at `uart_tx_w` under `uart_tx_lock`, and sleeps instead while the ring is full;
`uartstart`, from `uartputc` and from `uartintr`, moves characters from `uart_tx_r` to the
transmit holding register while the UART reports it idle.

The index arithmetic is modulo `2^64`, as in C; `UART_TX_BUF_SIZE` divides `2^64`, so the slots
stay right when the indices wrap, and the waiting characters are `Ring.window` over them.  How
many characters a run of `uartstart` sends is up to the UART, which may report THR busy at any
read of LSR: the model takes the number of reads that find it idle as a parameter of each run.
A process may wake at any time, as the loop around `sleep` allows.  Ghost state records the
characters stored and the characters written to THR.

* `uartstart_spec`: a run of `uartstart` sends the oldest waiting characters, in order;
* `Inv`, `inv_of_reachable`: `0 ≤ uart_tx_w - uart_tx_r ≤ UART_TX_BUF_SIZE` across any wrap, and
  the characters sent followed by those waiting are the characters stored;
* `uart_of_reachable`: hence what THR receives is what `uartputc` stored, in order, none lost or
  repeated, and a `uartputc` that finds the ring full stores nothing and sleeps.
-/

namespace Xv6.Uart

/-- `UART_TX_BUF_SIZE`. -/
def txBufSize : ℕ := 32

/-- `UART_TX_BUF_SIZE` against the `uint64` indices. -/
def txBufSize64 : UInt64 := 32

/-- The transmit ring: `uart_tx_buf`, `uart_tx_w`, `uart_tx_r`. -/
structure Tx where
  buf : ℕ → Char
  w : UInt64
  r : UInt64

/-- `uartstart()`, for a UART that reports THR idle at `k` reads of LSR in a row: the ring after
it, and the characters written to THR. -/
def uartstart : ℕ → Tx → Tx × List Char
  | 0, t => (t, [])
  | k + 1, t =>
    if t.w = t.r then (t, [])
    else
      let c := t.buf (t.r % txBufSize64).toNat
      let next := uartstart k { t with r := t.r + 1 }
      (next.1, c :: next.2)

/-- `uartputc(c)` once the ring has room: store `c` at `uart_tx_w`, then `uartstart()`. -/
def uartputc (t : Tx) (c : Char) (k : ℕ) : Tx × List Char :=
  uartstart k { t with buf := Function.update t.buf (t.w % txBufSize64).toNat c, w := t.w + 1 }

/-! ### Indices modulo `2^64` -/

namespace Tx

/-- The characters waiting, `uart_tx_w - uart_tx_r` in `uint64` arithmetic. -/
def count (t : Tx) : ℕ := (t.w - t.r).toNat

/-- The characters waiting, oldest first. -/
def waiting (t : Tx) : List Char := Ring.window t.buf txBufSize t.r.toNat t.count

variable (t : Tx)

theorem count_eq : t.count = (2 ^ 64 - t.r.toNat + t.w.toNat) % 2 ^ 64 :=
  UInt64.toNat_sub _ _

/-- `uartstart`'s empty test. -/
theorem w_eq_r_iff : t.w = t.r ↔ t.count = 0 := by
  have := t.r.toNat_lt
  have := t.w.toNat_lt
  rw [← UInt64.toNat_inj, count_eq]
  omega

/-- `uartputc`'s full test. -/
theorem full_iff : t.w = t.r + txBufSize64 ↔ t.count = txBufSize := by
  have := t.r.toNat_lt
  have := t.w.toNat_lt
  rw [← UInt64.toNat_inj, count_eq, UInt64.toNat_add]
  unfold txBufSize64 txBufSize
  simp only [UInt64.reduceToNat]
  omega

/-- The write index follows the waiting characters, whether the indices have wrapped or not. -/
theorem w_mod : (t.w % txBufSize64).toNat = (t.r.toNat + t.count) % txBufSize := by
  have := t.r.toNat_lt
  have := t.w.toNat_lt
  rw [UInt64.toNat_mod, count_eq]
  unfold txBufSize64 txBufSize
  simp only [UInt64.reduceToNat]
  omega

/-- Storing at the write index of a ring with room appends the character. -/
theorem store_waiting (c : Char) (h : t.count < txBufSize) :
    ({ t with buf := Function.update t.buf (t.w % txBufSize64).toNat c, w := t.w + 1 } : Tx).waiting =
      t.waiting ++ [c] ∧
    ({ t with buf := Function.update t.buf (t.w % txBufSize64).toNat c, w := t.w + 1 } : Tx).count =
      t.count + 1 := by
  have hcount : ({ t with w := t.w + 1 } : Tx).count = t.count + 1 := by
    have := t.r.toNat_lt
    have := t.w.toNat_lt
    rw [count_eq] at h ⊢
    rw [count_eq]
    simp only [UInt64.toNat_add, UInt64.toNat_one]
    unfold txBufSize at h
    omega
  refine ⟨?_, hcount⟩
  unfold waiting
  rw [show ({ t with buf := Function.update t.buf (t.w % txBufSize64).toNat c, w := t.w + 1 } :
    Tx).count = t.count + 1 from hcount, w_mod]
  exact Ring.window_push t.buf h c

/-- Sending takes the oldest waiting character. -/
theorem take_waiting (h : t.count ≠ 0) :
    t.waiting = t.buf (t.r % txBufSize64).toNat :: ({ t with r := t.r + 1 } : Tx).waiting ∧
      ({ t with r := t.r + 1 } : Tx).count = t.count - 1 := by
  have hcount : ({ t with r := t.r + 1 } : Tx).count = t.count - 1 := by
    have := t.r.toNat_lt
    have := t.w.toNat_lt
    rw [count_eq] at h ⊢
    rw [count_eq]
    simp only [UInt64.toNat_add, UInt64.toNat_one]
    omega
  refine ⟨?_, hcount⟩
  obtain ⟨k, hk⟩ : ∃ k, t.count = k + 1 := ⟨t.count - 1, by omega⟩
  have hmod : (t.r.toNat + 1) % txBufSize = (t.r + 1).toNat % txBufSize := by
    rw [UInt64.toNat_add, UInt64.toNat_one, Nat.mod_mod_of_dvd _ (by decide : txBufSize ∣ 2 ^ 64)]
  have hslot : (t.r % txBufSize64).toNat = t.r.toNat % txBufSize := by
    rw [UInt64.toNat_mod]
    rfl
  unfold waiting
  rw [hk, Ring.window_succ, hcount, hk, Nat.add_sub_cancel, hslot, Ring.window_congr t.buf hmod]

end Tx

/-- A run of `uartstart` sends the oldest waiting characters, in order, and keeps the rest
waiting; it leaves the buffer and the write index alone.  By induction on the reads of LSR. -/
theorem uartstart_spec : ∀ (k : ℕ) (t : Tx),
    (uartstart k t).2 ++ (uartstart k t).1.waiting = t.waiting ∧
      (uartstart k t).1.count ≤ t.count
  | 0, t => ⟨rfl, Nat.le_refl _⟩
  | k + 1, t => by
    rw [uartstart]
    split_ifs with he
    · exact ⟨rfl, Nat.le_refl _⟩
    · obtain ⟨hw, hc⟩ := t.take_waiting fun h => he ((t.w_eq_r_iff).2 h)
      obtain ⟨ih, hle⟩ := uartstart_spec k { t with r := t.r + 1 }
      refine ⟨?_, ?_⟩
      · rw [hw, ← ih]
        rfl
      · have : ({ t with r := t.r + 1 } : Tx).count ≤ t.count := by omega
        exact Nat.le_trans hle this

/-! ### The system -/

/-- Where a process is in `uartputc`. -/
inductive Phase
  | idle
  /-- Asleep in the loop of `uartputc(c)`, waiting for room. -/
  | sleeping (c : Char)
  deriving DecidableEq

/-- The ring, the writers, and the characters stored and sent so far. -/
structure Sys (ι : Type) where
  tx : Tx
  proc : ι → Phase
  stored : List Char
  sent : List Char

/-- One critical section under `uart_tx_lock`. -/
inductive Event (ι : Type)
  /-- `p` calls `uartputc(c)`; the UART is idle at `k` reads of LSR. -/
  | putc (p : ι) (c : Char) (k : ℕ)
  /-- `p` wakes in the loop of `uartputc`. -/
  | wake (p : ι) (k : ℕ)
  /-- `uartintr` runs `uartstart`. -/
  | intr (k : ℕ)

variable {ι : Type} [DecidableEq ι]

/-- `p` in `uartputc(c)` with the lock: sleep while the ring is full, else store `c` and run
`uartstart`. -/
def Sys.put (s : Sys ι) (p : ι) (c : Char) (k : ℕ) : Sys ι :=
  if s.tx.w = s.tx.r + txBufSize64 then { s with proc := Function.update s.proc p (.sleeping c) }
  else
    let out := uartputc s.tx c k
    { s with
      tx := out.1
      proc := Function.update s.proc p .idle
      stored := s.stored ++ [c]
      sent := s.sent ++ out.2 }

/-- The steps of the system. -/
def step (s : Sys ι) : Event ι → Option (Sys ι)
  | .putc p c k => if s.proc p = .idle then some (s.put p c k) else none
  | .wake p k =>
    match s.proc p with
    | .sleeping c => some (s.put p c k)
    | .idle => none
  | .intr k => some { s with tx := (uartstart k s.tx).1, sent := s.sent ++ (uartstart k s.tx).2 }

/-- After boot: both indices zero, no writer in `uartputc`. -/
def init : Sys ι := ⟨⟨fun _ => '\x00', 0, 0⟩, fun _ => .idle, [], []⟩

/-! ### Over every run -/

/-- The ring holds at most `UART_TX_BUF_SIZE` characters, and the characters sent followed by
those waiting are the characters stored. -/
structure Inv (s : Sys ι) : Prop where
  count_le : s.tx.count ≤ txBufSize
  fifo : s.sent ++ s.tx.waiting = s.stored

omit [DecidableEq ι] in
theorem inv_init : Inv (init : Sys ι) := by
  have hcount : (init : Sys ι).tx.count = 0 := by
    simp [init, Tx.count]
  refine ⟨by rw [hcount]; exact Nat.zero_le _, ?_⟩
  show [] ++ Ring.window _ txBufSize _ (init : Sys ι).tx.count = []
  rw [hcount, Ring.window_zero]
  rfl

variable {s : Sys ι}

/-- `uartputc` keeps `Inv`: a full ring is left alone, and a ring with room gets the character
at its end before `uartstart` sends from its front. -/
theorem Inv.put (hi : Inv s) (p : ι) (c : Char) (k : ℕ) : Inv (s.put p c k) := by
  unfold Sys.put
  split_ifs with hfull
  · exact ⟨hi.count_le, hi.fifo⟩
  · have hlt : s.tx.count < txBufSize :=
      Nat.lt_of_le_of_ne hi.count_le fun h => hfull ((s.tx.full_iff).2 h)
    obtain ⟨hw, hc⟩ := s.tx.store_waiting c hlt
    obtain ⟨hout, hle⟩ := uartstart_spec k
      { s.tx with buf := Function.update s.tx.buf (s.tx.w % txBufSize64).toNat c, w := s.tx.w + 1 }
    have hcount : (uartputc s.tx c k).1.count ≤ txBufSize := by
      unfold uartputc
      exact Nat.le_trans hle (by rw [hc]; omega)
    refine ⟨hcount, ?_⟩
    show s.sent ++ (uartputc s.tx c k).2 ++ (uartputc s.tx c k).1.waiting = s.stored ++ [c]
    unfold uartputc
    rw [List.append_assoc, hout, hw, ← List.append_assoc, hi.fifo]

omit [DecidableEq ι] in
theorem Inv.intr (hi : Inv s) (k : ℕ) :
    Inv { s with tx := (uartstart k s.tx).1, sent := s.sent ++ (uartstart k s.tx).2 } := by
  obtain ⟨hout, hle⟩ := uartstart_spec k s.tx
  refine ⟨Nat.le_trans hle hi.count_le, ?_⟩
  show s.sent ++ (uartstart k s.tx).2 ++ (uartstart k s.tx).1.waiting = s.stored
  rw [List.append_assoc, hout, hi.fifo]

theorem Inv.step (hi : Inv s) {e : Event ι} {s' : Sys ι} (h : step s e = some s') : Inv s' := by
  cases e with
  | putc p c k =>
    simp only [Uart.step] at h
    split_ifs at h
    cases h
    exact hi.put p c k
  | wake p k =>
    simp only [Uart.step] at h
    split at h
    · cases h
      exact hi.put p _ k
    · cases h
  | intr k =>
    cases h
    exact hi.intr k

theorem inv_of_reachable (hs : Steps.Reachable step init s) : Inv s :=
  Steps.Reachable.inv inv_init (fun _ _ _ hi h => hi.step h) hs

/-- Over every run, `0 ≤ uart_tx_w - uart_tx_r ≤ UART_TX_BUF_SIZE`; the characters written to THR
followed by those still waiting are the characters `uartputc` stored, in order, so none is lost
or repeated; and a `uartputc` that finds the ring full stores nothing and sleeps. -/
theorem uart_of_reachable (hs : Steps.Reachable step init s) :
    (s.tx.w - s.tx.r).toNat ≤ txBufSize ∧ s.sent ++ s.tx.waiting = s.stored ∧
      ∀ p c k, s.tx.count = txBufSize →
        (s.put p c k).tx = s.tx ∧ (s.put p c k).proc p = .sleeping c ∧ (s.put p c k).stored = s.stored := by
  have hi := inv_of_reachable hs
  refine ⟨hi.count_le, hi.fifo, fun p c k hfull => ?_⟩
  unfold Sys.put
  rw [if_pos ((s.tx.full_iff).2 hfull)]
  exact ⟨rfl, Function.update_self _ _ _, rfl⟩

/-- A character stored by `uartputc` and sent by `uartintr` reaches THR. -/
theorem uart_putc_intr : ∃ s : Sys (Fin 1), Steps.Reachable step init s ∧ s.sent = ['a'] ∧
    s.sent ++ s.tx.waiting = s.stored := by
  obtain ⟨s, hrun, hsent⟩ := Steps.exists_of_any (P := fun s : Sys (Fin 1) => s.sent = ['a'])
    (show (Steps.run step (init : Sys (Fin 1)) [.putc 0 'a' 0, .intr 1]).any _ = true by
      decide +kernel)
  have hs := Steps.reachable_of_run hrun
  exact ⟨s, hs, hsent, (uart_of_reachable hs).2.1⟩

end Xv6.Uart
