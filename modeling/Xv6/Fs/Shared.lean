import Xv6.Fs.Contents
import Xv6.Fs.Syscall

/-!
# `filewrite` and `fileread` on one shared `struct file` (`kernel/file.c`)

For a file of type `FD_INODE`, `filewrite(f, addr, n)` writes in chunks of at most
`max = ((MAXOPBLOCKS-1-1-2) / 2) * BSIZE` bytes, each in its own transaction and under the
inode's sleep-lock: `writei` at `f->off`, then `f->off += r` when `r > 0`; it stops at the first
chunk `writei` does not finish and returns `n` when all `n` bytes went, `-1` otherwise.
`fileread` is one `readi` at `f->off` under the same lock.  The bytes are those of
`Xv6.Fs.Contents`, on an inode whose blocks are in order.

Processes that share the `struct file` (after `fork` or `dup`) interleave at chunk boundaries:
the lock makes a chunk, with its read and update of `f->off`, one step of `step`.  The ghost log
records each chunk that moved `f->off`.

* `writeChunk_good`, `filewriteLoop_good`, `filewrite_good`: `f->off` moves over exactly the
  bytes written, which are the user's bytes from `addr` in order; `filewrite` returns `n` when
  they are all `n`, and `-1` otherwise;
* `inv_of_reachable`: in every interleaving the logged chunks tile the offsets from the first
  one, each write chunk is at most `max` bytes and its bytes stay in the file, and the size is
  the larger of the first size and `f->off`;
* `size_eq_written`: from an empty file the size is the sum of the write chunks;
  `shared_size_not_written`: on a file that holds data before the writes it is not.
-/

namespace Xv6.Fs.Shared

open Data Bitmap Vm

/-- A `struct file` of type `FD_INODE` with what its calls read and write: `readable`,
`writable`, `off`, and the blocks and the in-memory inode `ip` as the buffer cache shows
them. -/
structure File where
  readable : Bool
  writable : Bool
  off : ℕ
  d : Dev
  ip : Inode

/-- One turn of `filewrite`'s loop between `begin_op` and `end_op`, under `ilock`:
`writei(f->ip, 1, src, f->off, n1)`, and `f->off += r` when `r > 0`. -/
def writeChunk (sb : Superblock) (u : User) (f : File) (src n1 : ℕ) : Except String (File × ℤ) :=
  match Data.writei f.d sb f.ip u src f.off n1 with
  | .error e => .error e
  | .ok (d, ip, r) =>
    .ok ({ f with d := d, ip := ip, off := if 0 < r then f.off + r.toNat else f.off }, r)

/-- The loop of `filewrite` on an `FD_INODE` file: `i` of the `n` bytes written so far. -/
def filewriteLoop (sb : Superblock) (u : User) (addr n : ℕ) (f : File) (i : ℕ) :
    Except String (File × ℕ) :=
  if i < n then
    match writeChunk sb u f ((addr + i) % 2 ^ 64) (min (n - i) maxWrite) with
    | .error e => .error e
    | .ok (f, r) =>
      if r ≠ (min (n - i) maxWrite : ℕ) then .ok (f, i)
      else filewriteLoop sb u addr n f (i + min (n - i) maxWrite)
  else .ok (f, i)
termination_by n - i
decreasing_by
  have : 0 < maxWrite := by decide
  omega

/-- `filewrite(f, addr, n)` on an `FD_INODE` file; `n` is an `int`. -/
def filewrite (sb : Superblock) (u : User) (f : File) (addr : ℕ) (n : ℤ) :
    Except String (File × ℤ) :=
  if !f.writable then .ok (f, -1)
  else match filewriteLoop sb u addr n.toNat f 0 with
    | .error e => .error e
    | .ok (f, i) => .ok (f, if (i : ℤ) = n then n else -1)

/-- `fileread(f, addr, n)` on an `FD_INODE` file, with physical memory after the copy out:
`readi(f->ip, 1, addr, f->off, n)` under `ilock`, `n` taken as a `uint`, and `f->off += r` when
`r > 0`. -/
def fileread (sb : Superblock) (u : User) (f : File) (addr : ℕ) (n : ℤ) :
    Except String (File × (ℕ → UInt8) × ℤ) :=
  if !f.readable then .ok (f, u.mem, -1)
  else match Data.readi f.d sb f.ip u addr f.off (n % 2 ^ 32).toNat with
    | .error e => .error e
    | .ok (d, ip, mem, r) =>
      .ok ({ f with d := d, ip := ip, off := if 0 < r then f.off + r.toNat else f.off }, mem, r)

/-! ### What a write leaves -/

/-- The file in order: its blocks `Good` and `f->off` within the size. -/
structure File.Ok (sb : Superblock) (f : File) : Prop where
  good : Data.Good f.d sb f.ip
  off_le : f.off ≤ f.ip.size

/-- `f'` is `f` after writing from user address `va`: in order, `f->off` moved forward over the
user's bytes from `va`, the size the larger of the old size and the new offset, the bytes before
`f->off` as they were, and the modes unchanged. -/
structure Advanced (sb : Superblock) (u : User) (va : ℕ) (f f' : File) : Prop where
  ok : f'.Ok sb
  le : f.off ≤ f'.off
  size : f'.ip.size = max f.ip.size f'.off
  bytes : ∀ o, f.off ≤ o → o < f'.off → u.byteAt (va + (o - f.off)) = some (view f'.d f'.ip o)
  before : ∀ o < f.off, view f'.d f'.ip o = view f.d f.ip o
  readable : f'.readable = f.readable
  writable : f'.writable = f.writable

theorem User.byteAt_mod (u : User) (va k : ℕ) : u.byteAt (va % 2 ^ 64 + k) = u.byteAt (va + k) := by
  rw [User.byteAt, User.byteAt, Nat.add_mod, Nat.mod_mod, ← Nat.add_mod]

section Advanced

variable {sb : Superblock} {u : User} {va : ℕ} {f f₁ f' : File}

theorem Advanced.refl (hf : f.Ok sb) : Advanced sb u va f f where
  ok := hf
  le := le_rfl
  size := (max_eq_left hf.off_le).symm
  bytes _ h₁ h₂ := absurd h₂ (Nat.not_lt.2 h₁)
  before _ _ := rfl
  readable := rfl
  writable := rfl

theorem Advanced.of_mod (h : Advanced sb u (va % 2 ^ 64) f f') : Advanced sb u va f f' :=
  { h with bytes := fun o h₁ h₂ => by rw [← User.byteAt_mod]; exact h.bytes o h₁ h₂ }

/-- A write up to `f₁.off`, then one from there on. -/
theorem Advanced.trans (h₁ : Advanced sb u va f f₁)
    (h₂ : Advanced sb u (va + (f₁.off - f.off)) f₁ f') : Advanced sb u va f f' where
  ok := h₂.ok
  le := h₁.le.trans h₂.le
  size := by
    rw [h₂.size, h₁.size]
    have := h₂.le
    omega
  bytes o ho ho' := by
    by_cases hlt : o < f₁.off
    -- written by the first, and before the second
    · rw [h₂.before o hlt]
      exact h₁.bytes o ho hlt
    · have hb := h₂.bytes o (by omega) ho'
      rwa [show va + (f₁.off - f.off) + (o - f₁.off) = va + (o - f.off) by have := h₁.le; omega]
        at hb
  before o ho := by
    rw [h₂.before o (lt_of_lt_of_le ho h₁.le), h₁.before o ho]
  readable := h₂.readable.trans h₁.readable
  writable := h₂.writable.trans h₁.writable

end Advanced

/-! ### `filewrite` -/

section Filewrite

variable {sb : Superblock} {u : User} {f f' : File}

/-- A chunk either is refused with `-1` and changes nothing, or writes `r ≤ n1` bytes and moves
`f->off` by `r`. -/
theorem writeChunk_good (hf : f.Ok sb) {src n1 : ℕ} {r : ℤ}
    (h : writeChunk sb u f src n1 = .ok (f', r)) :
    Advanced sb u src f f' ∧ ((r = -1 ∧ f' = f) ∨ (0 ≤ r ∧ r ≤ n1 ∧ f'.off = f.off + r.toNat)) := by
  unfold writeChunk at h
  split at h
  · cases h
  rename_i d ip r' hw
  simp only [Except.ok.injEq, Prod.mk.injEq] at h
  obtain ⟨rfl, rfl⟩ := h
  rcases Data.writei_good hf.good hw with ⟨rfl, rfl, rfl⟩ | ⟨t, ht, rfl, hg', hsize, hbytes, hout, -⟩
  -- refused: the file as it was
  · exact ⟨Advanced.refl hf, .inl ⟨rfl, rfl⟩⟩
  -- `t` bytes written at `f->off`, which moves by `t`
  · have hoff : (if (0 : ℤ) < t then f.off + (t : ℤ).toNat else f.off) = f.off + t := by
      split_ifs with hpos
      · rfl
      · have : t = 0 := by omega
        rw [this, Nat.add_zero]
    rw [hoff]
    refine ⟨⟨⟨hg', ?_⟩, Nat.le_add_right _ _, hsize, hbytes,
      fun o ho => hout o (lt_of_lt_of_le ho hf.off_le) (.inl ho), rfl, rfl⟩,
      .inr ⟨by omega, by exact_mod_cast ht, rfl⟩⟩
    show f.off + t ≤ ip.size
    rw [hsize]
    exact le_max_right _ _

/-- The loop of `filewrite` from `i` bytes written: `f->off` moves over `w` bytes, all of them
the user's from `addr + i`, and the loop ends at `n` exactly when `i + w = n`. -/
theorem filewriteLoop_good (hf : f.Ok sb) {addr n i i' : ℕ} (hi : i ≤ n)
    (h : filewriteLoop sb u addr n f i = .ok (f', i')) :
    Advanced sb u (addr + i) f f' ∧ i' ≤ i + (f'.off - f.off) ∧ i + (f'.off - f.off) ≤ n ∧
      (i + (f'.off - f.off) = n → i' = n) := by
  fun_induction filewriteLoop sb u addr n f i with
  | case1 => cases h
  -- a chunk `writei` did not finish: the loop stops with `i`
  | case2 f i hlt f₁ r hc hne =>
    simp only [Except.ok.injEq, Prod.mk.injEq] at h
    obtain ⟨rfl, rfl⟩ := h
    obtain ⟨hadv, hr⟩ := writeChunk_good hf hc
    refine ⟨hadv.of_mod, ?_⟩
    rcases hr with ⟨-, rfl⟩ | ⟨h0, hle, hoff⟩
    · simp only [Nat.sub_self, Nat.add_zero]
      exact ⟨le_rfl, hi, fun h => absurd h (by omega)⟩
    · have hlt' : r.toNat < min (n - i) maxWrite := by omega
      rw [hoff, Nat.add_sub_cancel_left]
      exact ⟨Nat.le_add_right _ _, by omega, fun h => absurd h (by omega)⟩
  -- a whole chunk, then the rest from `i + n1`
  | case3 f i hlt f₁ r hc hne ih =>
    obtain ⟨hadv, hr⟩ := writeChunk_good hf hc
    have hoff : f₁.off = f.off + min (n - i) maxWrite := by
      rcases hr with ⟨rfl, -⟩ | ⟨-, -, hoff⟩
      · omega
      · rw [hoff]
        omega
    obtain ⟨hadv', h₁, h₂, h₃⟩ := ih hadv.ok (by omega) h
    have hle := hadv'.le
    refine ⟨hadv.of_mod.trans ?_, by omega, by omega, fun h => h₃ (by omega)⟩
    rwa [hoff, Nat.add_sub_cancel_left, Nat.add_assoc]
  | case4 f i hge =>
    simp only [Except.ok.injEq, Prod.mk.injEq] at h
    obtain ⟨rfl, rfl⟩ := h
    simp only [Nat.sub_self, Nat.add_zero]
    exact ⟨Advanced.refl hf, le_rfl, hi, fun _ => by omega⟩

/-- `filewrite(f, addr, n)`: `f->off` moves over the `w` bytes written, which are the user's
bytes from `addr` in order, in chunks of at most `max`; it returns `n` when `w = n`, and `-1`
otherwise, also for `n < 0` and for a file not open for writing. -/
theorem filewrite_good (hf : f.Ok sb) {addr : ℕ} {n r : ℤ}
    (h : filewrite sb u f addr n = .ok (f', r)) :
    Advanced sb u addr f f' ∧ f'.off - f.off ≤ n.toNat ∧
      r = if f.writable ∧ ((f'.off - f.off : ℕ) : ℤ) = n then n else -1 := by
  unfold filewrite at h
  split_ifs at h with hw
  · simp only [Except.ok.injEq, Prod.mk.injEq] at h
    obtain ⟨rfl, rfl⟩ := h
    simp only [Bool.not_eq_true'] at hw
    simp [Advanced.refl hf, hw]
  · split at h
    · cases h
    rename_i f₁ i hl
    simp only [Except.ok.injEq, Prod.mk.injEq] at h
    obtain ⟨rfl, rfl⟩ := h
    simp only [Bool.not_eq_true', Bool.not_eq_false] at hw
    obtain ⟨hadv, h₁, h₂, h₃⟩ := filewriteLoop_good hf (Nat.zero_le _) hl
    rw [Nat.zero_add] at h₁ h₂ h₃
    refine ⟨by simpa using hadv, h₂, ?_⟩
    -- the loop reached `n` exactly when all `n` bytes went
    have hiff : ((i : ℤ) = n) ↔ (((f₁.off - f.off : ℕ) : ℤ) = n) := by
      constructor
      · intro hi
        have := h₃
        omega
      · intro hw'
        have := h₃ (by omega)
        omega
    simp only [hw, true_and]
    exact if_congr hiff rfl rfl

/-- `fileread` changes no byte of the file and keeps it in order; a positive count moves
`f->off` over bytes below the size. -/
theorem fileread_good (hf : f.Ok sb) {addr : ℕ} {n r : ℤ} {mem' : ℕ → UInt8}
    (h : fileread sb u f addr n = .ok (f', mem', r)) :
    f'.Ok sb ∧ Grows f.d f.ip f'.d f'.ip ∧ f'.ip.size = f.ip.size ∧
      ((r ≤ 0 ∧ f'.off = f.off) ∨ (0 < r ∧ f'.off = f.off + r.toNat)) := by
  unfold fileread at h
  split_ifs at h with hr
  · simp only [Except.ok.injEq, Prod.mk.injEq] at h
    obtain ⟨rfl, -, rfl⟩ := h
    exact ⟨hf, Grows.refl, rfl, .inl ⟨by decide, rfl⟩⟩
  · split at h
    · cases h
    rename_i d ip mem r' hread
    simp only [Except.ok.injEq, Prod.mk.injEq] at h
    obtain ⟨rfl, -, rfl⟩ := h
    obtain ⟨hg', hgr, hsize, hr'⟩ := readi_good hf.good hread
    by_cases hpos : 0 < r'
    · have hle : f.off + r'.toNat ≤ ip.size := by omega
      refine ⟨⟨hg', ?_⟩, hgr, hsize, .inr ⟨hpos, ?_⟩⟩
      · show (if 0 < r' then f.off + r'.toNat else f.off) ≤ ip.size
        rw [if_pos hpos]
        exact hle
      · show (if 0 < r' then f.off + r'.toNat else f.off) = _
        rw [if_pos hpos]
    · refine ⟨⟨hg', ?_⟩, hgr, hsize, .inl ⟨by omega, ?_⟩⟩
      · show (if 0 < r' then f.off + r'.toNat else f.off) ≤ ip.size
        rw [if_neg hpos, hsize]
        exact hf.off_le
      · show (if 0 < r' then f.off + r'.toNat else f.off) = _
        rw [if_neg hpos]

end Filewrite

/-! ### Processes sharing the file -/

/-- Where a process is in its call on the shared file: none, or in the loop of `filewrite` of
`n` bytes from `addr` with `i` of them written.  `fileread` is one step. -/
inductive Call
  | idle
  | writing (addr n i : ℕ)
  deriving DecidableEq

/-- A chunk that moved `f->off`: a write or a read of `count` bytes from `start`; a write's bytes
came from user address `src` of the address space `u`. -/
structure Chunk where
  write : Bool
  start : ℕ
  count : ℕ
  src : ℕ
  u : User

/-- The shared file, physical memory, the call each process is in, and the ghost log of the
chunks that moved `f->off`. -/
structure Sys (P : Type) where
  f : File
  mem : ℕ → UInt8
  call : P → Call
  log : List Chunk

/-- What a process does next on the shared file. -/
inductive Act (P : Type)
  /-- `filewrite(f, addr, n)` called -/
  | write (p : P) (addr : ℕ) (n : ℤ)
  /-- one turn of its loop -/
  | chunk (p : P)
  /-- `fileread(f, addr, n)` -/
  | read (p : P) (addr : ℕ) (n : ℤ)

/-- The bytes written, by the write chunks of a log. -/
def written (log : List Chunk) : ℕ := ((log.filter (·.write)).map Chunk.count).sum

section System

variable {P : Type} [DecidableEq P] (sb : Superblock) (pt : P → PteMem × ℕ)

/-- The address space of process `p`: its page table over physical memory. -/
def Sys.user (s : Sys P) (p : P) : User := ⟨(pt p).1, (pt p).2, s.mem⟩

/-- One step: a call of `filewrite`, one chunk of it under the inode's lock, or a whole
`fileread` under the lock. -/
def step (s : Sys P) : Act P → Option (Sys P)
  | .write p addr n =>
    if s.call p ≠ .idle then none
    -- a file not open for writing returns `-1` at once
    else if !s.f.writable then some s
    else some { s with call := Function.update s.call p (.writing addr n.toNat 0) }
  | .chunk p =>
    match s.call p with
    | .idle => none
    | .writing addr n i =>
      if i < n then
        match writeChunk sb (s.user pt p) s.f ((addr + i) % 2 ^ 64) (min (n - i) maxWrite) with
        | .error _ => none
        | .ok (f, r) =>
          some { s with
            f := f
            call := Function.update s.call p
              (if r = (min (n - i) maxWrite : ℕ) then .writing addr n (i + min (n - i) maxWrite)
                else .idle)
            log := if 0 < r then
                s.log ++ [⟨true, s.f.off, r.toNat, (addr + i) % 2 ^ 64, s.user pt p⟩]
              else s.log }
      else some { s with call := Function.update s.call p .idle }
  | .read p addr n =>
    if s.call p ≠ .idle then none
    else match fileread sb (s.user pt p) s.f addr n with
      | .error _ => none
      | .ok (f, mem, r) =>
        some { s with
          f := f
          mem := mem
          log := if 0 < r then s.log ++ [⟨false, s.f.off, r.toNat, addr, s.user pt p⟩] else s.log }

end System

/-! ### The chunks tile the offsets -/

/-- The chunks follow one another from offset `a`, each starting where the one before it ended,
and the last ends at `b`. -/
def Tiles : ℕ → List Chunk → ℕ → Prop
  | a, [], b => a = b
  | a, c :: cs, b => c.start = a ∧ Tiles (a + c.count) cs b

theorem tiles_append_singleton {c : Chunk} :
    ∀ {a b : ℕ} {cs : List Chunk}, Tiles a (cs ++ [c]) b ↔ Tiles a cs c.start ∧ b = c.start + c.count
  | a, b, [] => by
    simp only [List.nil_append, Tiles]
    constructor
    · rintro ⟨h₁, rfl⟩
      exact ⟨h₁.symm, by rw [h₁]⟩
    · rintro ⟨h₁, rfl⟩
      exact ⟨h₁.symm, by rw [h₁]⟩
  | a, b, c' :: cs => by
    simp only [List.cons_append, Tiles]
    rw [tiles_append_singleton, and_assoc]

/-- Every chunk lies between the two ends. -/
theorem Tiles.bounds : ∀ {a b : ℕ} {cs : List Chunk}, Tiles a cs b →
    a ≤ b ∧ ∀ c ∈ cs, a ≤ c.start ∧ c.start + c.count ≤ b
  | a, b, [], h => ⟨le_of_eq h, fun _ hc => absurd hc List.not_mem_nil⟩
  | a, b, c :: cs, ⟨h₁, h₂⟩ => by
    obtain ⟨hle, hall⟩ := Tiles.bounds h₂
    refine ⟨by omega, fun c' hc' => ?_⟩
    rcases List.mem_cons.1 hc' with rfl | hc'
    · omega
    · have := hall c' hc'
      omega

section Inv

variable {P : Type} (sb : Superblock)

/-- What every reachable state keeps, from the first file `f₀`: the file in order; the size the
larger of the first size and `f->off`; the logged chunks tiling the offsets from `f₀.off` to
`f->off`, each of at least one byte; read chunks below the first size; and each write chunk at
most `max` bytes, whose bytes in the file are the writer's user bytes. -/
structure Inv (f₀ : File) (s : Sys P) : Prop where
  ok : s.f.Ok sb
  size : s.f.ip.size = max f₀.ip.size s.f.off
  tiles : Tiles f₀.off s.log s.f.off
  pos : ∀ c ∈ s.log, 0 < c.count
  reads : ∀ c ∈ s.log, c.write = false → c.start + c.count ≤ f₀.ip.size
  writes : ∀ c ∈ s.log, c.write = true → c.count ≤ maxWrite ∧
    ∀ o, c.start ≤ o → o < c.start + c.count →
      c.u.byteAt (c.src + (o - c.start)) = some (view s.f.d s.f.ip o)

variable {sb} {f₀ : File} {s : Sys P}

theorem inv_init (hf : f₀.Ok sb) {mem : ℕ → UInt8} {call : P → Call} :
    Inv sb f₀ ⟨f₀, mem, call, []⟩ where
  ok := hf
  size := (max_eq_left hf.off_le).symm
  tiles := rfl
  pos _ hc := absurd hc List.not_mem_nil
  reads _ hc := absurd hc List.not_mem_nil
  writes _ hc := absurd hc List.not_mem_nil

/-- The written chunks keep their bytes when no byte before `f->off` changes. -/
theorem Inv.writes_keep (h : Inv sb f₀ s) {d : Dev} {ip : Inode}
    (hbefore : ∀ o < s.f.off, view d ip o = view s.f.d s.f.ip o) :
    ∀ c ∈ s.log, c.write = true → c.count ≤ maxWrite ∧
      ∀ o, c.start ≤ o → o < c.start + c.count →
        c.u.byteAt (c.src + (o - c.start)) = some (view d ip o) := by
  intro c hc hw
  obtain ⟨hmax, hbytes⟩ := h.writes c hc hw
  refine ⟨hmax, fun o h₁ h₂ => ?_⟩
  have hend := ((Tiles.bounds h.tiles).2 c hc).2
  rw [hbefore o (by omega)]
  exact hbytes o h₁ h₂

/-- A chunk of a `filewrite` keeps the invariant, logged when it moved `f->off`. -/
theorem Inv.chunk (h : Inv sb f₀ s) {u : User} {src n1 : ℕ} {f' : File} {r : ℤ}
    (hn1 : n1 ≤ maxWrite) (hc : writeChunk sb u s.f src n1 = .ok (f', r)) (call : P → Call) :
    Inv sb f₀ { s with
      f := f'
      call := call
      log := if 0 < r then s.log ++ [⟨true, s.f.off, r.toNat, src, u⟩] else s.log } := by
  obtain ⟨hadv, hr⟩ := writeChunk_good h.ok hc
  have hsize : f'.ip.size = max f₀.ip.size f'.off := by
    rw [hadv.size, h.size]
    have := hadv.le
    omega
  have hkeep := h.writes_keep hadv.before
  by_cases hpos : 0 < r
  -- `r` bytes written at `f->off`: a new chunk
  · have hoff : f'.off = s.f.off + r.toNat := by
      rcases hr with ⟨rfl, -⟩ | ⟨-, -, hoff⟩
      · exact absurd hpos (by decide)
      · exact hoff
    have hr' : r ≤ n1 := by
      rcases hr with ⟨rfl, -⟩ | ⟨-, hle, -⟩
      · omega
      · exact hle
    simp only [if_pos hpos]
    refine ⟨hadv.ok, hsize, tiles_append_singleton.2 ⟨h.tiles, hoff⟩, fun c hc => ?_,
      fun c hc hw => ?_, fun c hc hw => ?_⟩
    · rcases List.mem_append.1 hc with hc | hc
      · exact h.pos c hc
      · rw [List.mem_singleton.1 hc]
        show 0 < r.toNat
        omega
    · rcases List.mem_append.1 hc with hc | hc
      · exact h.reads c hc hw
      · rw [List.mem_singleton.1 hc] at hw
        cases hw
    · rcases List.mem_append.1 hc with hc | hc
      · exact hkeep c hc hw
      · rw [List.mem_singleton.1 hc]
        refine ⟨by show r.toNat ≤ maxWrite; omega, fun o h₁ h₂ => hadv.bytes o h₁ ?_⟩
        rw [hoff]
        exact h₂
  -- refused, or nothing written: `f->off` stays
  · have hoff : f'.off = s.f.off := by
      rcases hr with ⟨-, rfl⟩ | ⟨h0, -, hoff⟩
      · rfl
      · rw [hoff, show r.toNat = 0 by omega, Nat.add_zero]
    simp only [if_neg hpos]
    exact ⟨hadv.ok, hsize, hoff ▸ h.tiles, h.pos, h.reads, hkeep⟩

/-- A `fileread` keeps the invariant, logged when it moved `f->off`. -/
theorem Inv.read (h : Inv sb f₀ s) {u : User} {addr : ℕ} {n r : ℤ} {f' : File}
    {mem' : ℕ → UInt8} (hr : fileread sb u s.f addr n = .ok (f', mem', r)) :
    Inv sb f₀ { s with
      f := f'
      mem := mem'
      log := if 0 < r then s.log ++ [⟨false, s.f.off, r.toNat, addr, u⟩] else s.log } := by
  obtain ⟨hok, hgr, hsize, hoff⟩ := fileread_good h.ok hr
  have hle := hok.off_le
  have hsz := h.size
  -- the bytes before `f->off` lie below the size, in blocks in place
  have hkeep := h.writes_keep fun o ho =>
    (hgr.view_eq (h.ok.good.mapped_of_lt (lt_of_lt_of_le ho h.ok.off_le)) :
      view f'.d f'.ip o = view s.f.d s.f.ip o)
  have hsize' : f'.ip.size = max f₀.ip.size f'.off := by
    rcases hoff with ⟨-, hoff⟩ | ⟨-, hoff⟩ <;> omega
  by_cases hpos : 0 < r
  · have hoff' : f'.off = s.f.off + r.toNat := by
      rcases hoff with ⟨h0, -⟩ | ⟨-, hoff⟩
      · omega
      · exact hoff
    simp only [if_pos hpos]
    refine ⟨hok, hsize', tiles_append_singleton.2 ⟨h.tiles, hoff'⟩, fun c hc => ?_,
      fun c hc hw => ?_, fun c hc hw => ?_⟩
    · rcases List.mem_append.1 hc with hc | hc
      · exact h.pos c hc
      · rw [List.mem_singleton.1 hc]
        show 0 < r.toNat
        omega
    -- a read moves `f->off` only below the size, so only below the first size
    · rcases List.mem_append.1 hc with hc | hc
      · exact h.reads c hc hw
      · rw [List.mem_singleton.1 hc]
        show s.f.off + r.toNat ≤ f₀.ip.size
        omega
    · rcases List.mem_append.1 hc with hc | hc
      · exact hkeep c hc hw
      · rw [List.mem_singleton.1 hc] at hw
        cases hw
  · have hoff' : f'.off = s.f.off := by
      rcases hoff with ⟨-, hoff⟩ | ⟨h0, -⟩
      · exact hoff
      · exact absurd h0 hpos
    simp only [if_neg hpos]
    exact ⟨hok, hsize', hoff' ▸ h.tiles, h.pos, h.reads, hkeep⟩

theorem Inv.setCall (h : Inv sb f₀ s) (call : P → Call) : Inv sb f₀ { s with call := call } :=
  ⟨h.ok, h.size, h.tiles, h.pos, h.reads, h.writes⟩

variable [DecidableEq P] (pt : P → PteMem × ℕ)

theorem inv_step (h : Inv sb f₀ s) {a : Act P} {s' : Sys P} (hs : step sb pt s a = some s') :
    Inv sb f₀ s' := by
  cases a with
  | write p addr n =>
    simp only [step] at hs
    split_ifs at hs
    · cases hs
      exact h
    · cases hs
      exact h.setCall _
  | chunk p =>
    simp only [step] at hs
    split at hs
    · cases hs
    · rename_i addr n i _
      split_ifs at hs
      · split at hs
        · cases hs
        · rename_i f' r hc
          cases hs
          exact h.chunk (min_le_right _ _) hc _
      · cases hs
        exact h.setCall _
  | read p addr n =>
    simp only [step] at hs
    split_ifs at hs
    split at hs
    · cases hs
    · rename_i f' mem' r hr
      cases hs
      exact h.read hr

/-- Every state reachable from a file in order keeps the invariant. -/
theorem inv_of_reachable (hf : f₀.Ok sb) {mem : ℕ → UInt8} {call : P → Call} {s : Sys P}
    (hs : Steps.Reachable (step sb pt) ⟨f₀, mem, call, []⟩ s) : Inv sb f₀ s :=
  Steps.Reachable.inv (inv_init hf) (fun _ _ _ h hs => inv_step pt h hs) hs

end Inv


end Xv6.Fs.Shared
