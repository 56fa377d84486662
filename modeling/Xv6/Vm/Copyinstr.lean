import Xv6.Vm.Copy

/-!
# `copyinstr` (`kernel/vm.c`) and the string arguments of system calls (`kernel/syscall.c`)

`copyinstr(pagetable, dst, srcva, max)` copies a NUL-terminated string from user space: page by
page, as `copyin` does, each page looked up with `walkaddr`, and inside a page byte by byte until
the NUL or until `max` bytes are spent.  `fetchstr` returns `strlen` of what it copied, and
`argstr` is `fetchstr` at the address in an argument register.

The specification reads user memory a byte at a time (`userByte`): the byte at `va` is there when
`walkaddr` accepts the page of `va` (`PTE_V` and `PTE_U`, below `MAXVA`).  `StrAt va max bs` says
that user memory at `va` holds the bytes `bs`, none of them NUL, then a NUL, all of it among the
first `max` bytes.

* `copyinstr_chunk`: the inner loop over one page reads what the byte-wise reading reads;
* `copyinstr_userStr`: `copyinstr` returns `0` with the string and its NUL exactly when the
  byte-wise reading finds them, and never stores more than `max` bytes;
* `copyinstr_fetchstr`: the same in terms of `StrAt`, with `fetchstr`'s length below `max`;
* `fetchstr_of_string`: on a string in user pages `fetchstr` fails exactly when the string has
  `max` bytes or more, the check `sys_open` and the other path calls of `Fs/Syscall.lean` make.
-/

namespace Xv6.Vm

/-! ### The model -/

/-- The inner loop of `copyinstr` over the `n` bytes of one page from physical address `p`: the
bytes it stores at `dst` (the NUL included) and whether it met the NUL. -/
def copyinstrPage (mem : ℕ → UInt8) (p : ℕ) : ℕ → List UInt8 × Bool
  | 0 => ([], false)
  | n + 1 =>
    if mem p = 0 then ([0], true)
    else
      let r := copyinstrPage mem (p + 1) n
      (mem p :: r.1, r.2)

/-- `copyinstr(pagetable, dst, srcva, max)`: its return value and the bytes it stores at `dst`,
in order. -/
def copyinstr (m : PteMem) (pagetable : ℕ) (mem : ℕ → UInt8) (srcva max : ℕ) : ℤ × List UInt8 :=
  if max = 0 then (-1, [])
  else if walkaddr m pagetable (pgrounddown srcva) = 0 then (-1, [])
  else
    let va0 := pgrounddown srcva
    let pa0 := walkaddr m pagetable va0
    let n := min (pgSize - (srcva - va0)) max
    let r := copyinstrPage mem (pa0 + (srcva - va0)) n
    if r.2 then (0, r.1)
    else
      let r' := copyinstr m pagetable mem ((va0 + pgSize) % 2 ^ 64) (max - n)
      (r'.1, r.1 ++ r'.2)
termination_by max
decreasing_by
  have := sub_pgrounddown_lt srcva
  omega

/-- `strlen(s)`: the bytes before the first NUL. -/
def strlen (s : List UInt8) : ℕ := (s.takeWhile (· ≠ 0)).length

/-- `fetchstr(addr, buf, max)`: the length of the string copied into `buf`, or `-1`. -/
def fetchstr (m : PteMem) (pagetable : ℕ) (mem : ℕ → UInt8) (addr max : ℕ) : ℤ :=
  if (copyinstr m pagetable mem addr max).1 < 0 then -1
  else strlen (copyinstr m pagetable mem addr max).2

/-- `argstr(n, buf, max)`: `fetchstr` at the address in argument register `n` (`argraw`). -/
def argstr (m : PteMem) (pagetable : ℕ) (mem : ℕ → UInt8) (regs : Fin 6 → ℕ) (n : Fin 6)
    (max : ℕ) : ℤ :=
  fetchstr m pagetable mem (regs n) max

/-! ### Reading user memory a byte at a time -/

/-- The byte at user address `va`, read through `walkaddr` of its page; `none` when `walkaddr`
refuses the page. -/
def userByte (m : PteMem) (pagetable : ℕ) (mem : ℕ → UInt8) (va : ℕ) : Option UInt8 :=
  if walkaddr m pagetable (pgrounddown va) = 0 then none
  else some (mem (walkaddr m pagetable (pgrounddown va) + (va - pgrounddown va)))

/-- The string at `va` read a byte at a time within `max` bytes, its NUL included; `none` when a
byte is not in a user page or no NUL comes within `max` bytes. -/
def userStr (m : PteMem) (pagetable : ℕ) (mem : ℕ → UInt8) (va : ℕ) : ℕ → Option (List UInt8)
  | 0 => none
  | max + 1 =>
    match userByte m pagetable mem va with
    | none => none
    | some b => if b = 0 then some [0] else (userStr m pagetable mem (va + 1) max).map (b :: ·)

/-- User memory at `va` holds the string `bs` and then its NUL, within `max` bytes and in pages
`walkaddr` accepts. -/
structure StrAt (m : PteMem) (pagetable : ℕ) (mem : ℕ → UInt8) (va max : ℕ) (bs : List UInt8) :
    Prop where
  short : bs.length < max
  noNul : 0 ∉ bs
  bytes : ∀ j (hj : j < bs.length), userByte m pagetable mem (va + j) = some bs[j]
  nul : userByte m pagetable mem (va + bs.length) = some 0

section
variable (m : PteMem) (pagetable : ℕ) (mem : ℕ → UInt8)

theorem copyinstrPage_length (p n : ℕ) : (copyinstrPage mem p n).1.length ≤ n := by
  induction n generalizing p with
  | zero => simp [copyinstrPage]
  | succ n ih =>
    rw [copyinstrPage]
    split
    · simp
    · simpa using ih (p + 1)

/-- Inside a page `walkaddr` accepts, the byte at `va + j` is at the same offset of its physical
page. -/
theorem userByte_page {va : ℕ} (hw : walkaddr m pagetable (pgrounddown va) ≠ 0) {j : ℕ}
    (hj : j < pgSize - (va - pgrounddown va)) :
    userByte m pagetable mem (va + j) =
      some (mem (walkaddr m pagetable (pgrounddown va) + (va - pgrounddown va) + j)) := by
  have hround : pgrounddown (va + j) = pgrounddown va := by
    unfold pgrounddown at *
    unfold pgSize at *
    omega
  have hoff : va + j - pgrounddown va = va - pgrounddown va + j := by
    have := Nat.sub_le va (va % pgSize)
    unfold pgrounddown
    omega
  rw [userByte, hround, if_neg hw, hoff, Nat.add_assoc]

@[simp] theorem userStr_zero (va : ℕ) : userStr m pagetable mem va 0 = none := rfl

/-- The inner loop of `copyinstr` over `i` bytes that user memory holds at `va` reads what the
byte-wise reading reads: the string, when its NUL is among them, and otherwise their bytes before
the reading of what follows. -/
theorem copyinstr_chunk : ∀ (i va p max : ℕ), i ≤ max →
    (∀ j < i, userByte m pagetable mem (va + j) = some (mem (p + j))) →
    userStr m pagetable mem va max =
      if (copyinstrPage mem p i).2 then some (copyinstrPage mem p i).1
      else (userStr m pagetable mem (va + i) (max - i)).map ((copyinstrPage mem p i).1 ++ ·)
  | 0, va, p, max, _, _ => by simp [copyinstrPage]
  | i + 1, va, p, max, hi, hbytes => by
    obtain ⟨max, rfl⟩ : ∃ k, max = k + 1 := ⟨max - 1, by omega⟩
    have h0 : userByte m pagetable mem va = some (mem p) := by simpa using hbytes 0 (by omega)
    have ih := copyinstr_chunk i (va + 1) (p + 1) max (by omega)
      (fun j hj => by simpa [Nat.add_assoc, Nat.add_comm 1 j] using hbytes (j + 1) (by omega))
    rw [userStr, h0, copyinstrPage]
    by_cases hb : mem p = 0
    · simp [hb]
    · simp only [hb, if_false, ih, Nat.add_sub_add_right]
      split
      · rfl
      · rw [Option.map_map, show va + 1 + i = va + (i + 1) by omega]
        rfl

/-- The page after a page below `MAXVA` does not wrap past `2^64`. -/
theorem next_page_lt {va0 : ℕ} (h : va0 < maxVa) : (va0 + pgSize) % 2 ^ 64 = va0 + pgSize :=
  Nat.mod_eq_of_lt (lt_of_lt_of_le (Nat.add_lt_add_right h pgSize) (by norm_num [maxVa, pgSize]))

/-- `copyinstr` returns `0` exactly when the byte-wise reading finds the string, stores that string
and its NUL, and never stores more than `max` bytes. -/
theorem copyinstr_userStr : ∀ (max va : ℕ),
    (copyinstr m pagetable mem va max).1 =
        (if (userStr m pagetable mem va max).isSome then 0 else -1) ∧
      (∀ s, userStr m pagetable mem va max = some s → (copyinstr m pagetable mem va max).2 = s) ∧
      (copyinstr m pagetable mem va max).2.length ≤ max := by
  intro max
  induction max using Nat.strong_induction_on with
  | _ max ih =>
    intro va
    rw [copyinstr]
    by_cases hmax : max = 0
    · subst hmax
      simp
    obtain ⟨max', rfl⟩ : ∃ k, max = k + 1 := ⟨max - 1, by omega⟩
    by_cases hw : walkaddr m pagetable (pgrounddown va) = 0
    -- the first page is refused: the reading stops at its first byte
    · have hnone : userStr m pagetable mem va (max' + 1) = none := by
        simp [userStr, userByte, hw]
      simp [hw, hnone]
    -- the first page is read; the rest of the string starts on the next page
    · have hoff := sub_pgrounddown_lt va
      have hle : pgrounddown va ≤ va := Nat.sub_le _ _
      simp only [Nat.add_one_ne_zero, if_false, if_neg hw]
      have hchunk := copyinstr_chunk m pagetable mem (min (pgSize - (va - pgrounddown va)) (max' + 1))
        va (walkaddr m pagetable (pgrounddown va) + (va - pgrounddown va)) (max' + 1) (by omega)
        (fun j hj => userByte_page m pagetable mem hw (by omega))
      have hlen := copyinstrPage_length mem
        (walkaddr m pagetable (pgrounddown va) + (va - pgrounddown va))
        (min (pgSize - (va - pgrounddown va)) (max' + 1))
      generalize hn : min (pgSize - (va - pgrounddown va)) (max' + 1) = n at hchunk hlen ⊢
      generalize copyinstrPage mem (walkaddr m pagetable (pgrounddown va) + (va - pgrounddown va)) n
        = r at hchunk hlen ⊢
      by_cases hr : r.2
      · rw [hchunk, if_pos hr]
        simp only [if_pos hr, Option.isSome_some, if_true, Option.some.injEq, forall_eq']
        exact ⟨trivial, trivial, by omega⟩
      · rw [hchunk, if_neg hr]
        simp only [if_neg hr]
        -- the next reading starts at the next page, or has no byte left to read
        have hnext : userStr m pagetable mem (va + n) (max' + 1 - n) =
            userStr m pagetable mem ((pgrounddown va + pgSize) % 2 ^ 64) (max' + 1 - n) := by
          by_cases hfull : n = pgSize - (va - pgrounddown va)
          · rw [next_page_lt ((walkaddr_ne_zero_iff m pagetable _).mp hw).1,
              show va + n = pgrounddown va + pgSize by omega]
          · rw [show max' + 1 - n = 0 by omega, userStr_zero, userStr_zero]
        obtain ⟨h1, h2, h3⟩ := ih (max' + 1 - n) (by omega) ((pgrounddown va + pgSize) % 2 ^ 64)
        rw [hnext]
        refine ⟨by simpa using h1, fun s hs => ?_, ?_⟩
        · obtain ⟨s', hs', rfl⟩ := Option.map_eq_some_iff.mp hs
          simp only [h2 s' hs']
        · simp only [List.length_append]
          omega

/-! ### The string at an address -/

theorem strAt_nil_iff {va max : ℕ} :
    StrAt m pagetable mem va max [] ↔ 0 < max ∧ userByte m pagetable mem va = some 0 :=
  ⟨fun h => ⟨h.short, by simpa using h.nul⟩,
    fun h => ⟨h.1, List.not_mem_nil, fun j hj => absurd hj (Nat.not_lt_zero j), by simpa using h.2⟩⟩

/-- A non-NUL user byte at `va` starts a string at `va` exactly when the string after it starts
at `va + 1`. -/
theorem strAt_cons_iff {va max : ℕ} {b : UInt8} (hva : userByte m pagetable mem va = some b)
    (hb : b ≠ 0) (bs : List UInt8) :
    StrAt m pagetable mem va (max + 1) (b :: bs) ↔ StrAt m pagetable mem (va + 1) max bs := by
  constructor
  · intro h
    refine ⟨by simpa using h.short, fun hm => h.noNul (List.mem_cons_of_mem _ hm),
      fun j hj => ?_, ?_⟩
    · have := h.bytes (j + 1) (by simpa using hj)
      rw [List.getElem_cons_succ] at this
      simpa [Nat.add_assoc, Nat.add_comm 1 j] using this
    · simpa [Nat.add_assoc, Nat.add_comm 1] using h.nul
  · intro h
    refine ⟨by simpa using h.short, ?_, fun j hj => ?_, ?_⟩
    · rintro (_ | ⟨_, hm⟩)
      · exact hb rfl
      · exact h.noNul hm
    · cases j with
      | zero => simpa using hva
      | succ j =>
        simpa [Nat.add_assoc, Nat.add_comm 1 j] using h.bytes j (by simpa using hj)
    · simpa [Nat.add_assoc, Nat.add_comm 1] using h.nul

/-- The byte-wise reading finds a string exactly when user memory holds it. -/
theorem userStr_eq_some_iff : ∀ (max va : ℕ) (s : List UInt8),
    userStr m pagetable mem va max = some s ↔
      ∃ bs, s = bs ++ [0] ∧ StrAt m pagetable mem va max bs
  | 0, va, s => by
    simp only [userStr_zero, reduceCtorEq, false_iff, not_exists, not_and]
    exact fun bs _ h => absurd h.short (Nat.not_lt_zero _)
  | max + 1, va, s => by
    rw [userStr]
    cases hva : userByte m pagetable mem va with
    -- the first byte is not in a user page: no string starts here
    | none =>
      simp only [reduceCtorEq, false_iff, not_exists, not_and]
      intro bs _ h
      cases bs with
      | nil => simpa [hva] using h.nul
      | cons b bs => simpa [hva] using h.bytes 0 (by simp)
    | some b =>
      by_cases hb : b = 0
      -- the first byte is the NUL: the string is empty
      · subst hb
        simp only [if_true, Option.some.injEq]
        constructor
        · rintro rfl
          exact ⟨[], rfl, (strAt_nil_iff m pagetable mem).mpr ⟨by omega, by simpa using hva⟩⟩
        · rintro ⟨bs, rfl, h⟩
          cases bs with
          | nil => rfl
          | cons b bs =>
            have := h.bytes 0 (by simp)
            simp only [Nat.add_zero, hva, Option.some.injEq, List.getElem_cons_zero] at this
            exact absurd (this ▸ List.mem_cons_self) h.noNul
      -- a byte of the string: the rest of the string starts at `va + 1`
      · simp only [if_neg hb, Option.map_eq_some_iff, userStr_eq_some_iff max (va + 1)]
        constructor
        · rintro ⟨s', ⟨bs, rfl, h⟩, rfl⟩
          exact ⟨b :: bs, rfl, (strAt_cons_iff m pagetable mem hva hb bs).mpr h⟩
        · rintro ⟨bs, rfl, h⟩
          cases bs with
          | nil =>
            have := h.nul
            simp [hva, hb] at this
          | cons b' bs =>
            have hb' : b' = b := by
              have := h.bytes 0 (by simp)
              simp only [Nat.add_zero, hva, Option.some.injEq, List.getElem_cons_zero] at this
              exact this.symm
            subst hb'
            exact ⟨bs ++ [0], ⟨bs, rfl, (strAt_cons_iff m pagetable mem hva hb bs).mp h⟩, rfl⟩

/-- `strlen` of a string and its NUL is the string's length. -/
theorem strlen_append_nul {bs : List UInt8} (h : 0 ∉ bs) : strlen (bs ++ [0]) = bs.length := by
  have hpos : ∀ x ∈ bs, decide (x ≠ 0) = true := fun x hx => by
    simp only [ne_eq, decide_eq_true_eq]
    rintro rfl
    exact h hx
  rw [strlen, List.takeWhile_append_of_pos hpos]
  simp

/-! ### `copyinstr` and `fetchstr` on what user memory holds -/

theorem copyinstr_of_strAt {va max : ℕ} {bs : List UInt8} (h : StrAt m pagetable mem va max bs) :
    copyinstr m pagetable mem va max = (0, bs ++ [0]) := by
  have hs := (userStr_eq_some_iff m pagetable mem max va (bs ++ [0])).mpr ⟨bs, rfl, h⟩
  obtain ⟨h1, h2, -⟩ := copyinstr_userStr m pagetable mem max va
  rw [hs, Option.isSome_some, if_pos rfl] at h1
  exact Prod.ext h1 (h2 _ hs)

theorem copyinstr_of_not_strAt {va max : ℕ} (h : ∀ bs, ¬ StrAt m pagetable mem va max bs) :
    (copyinstr m pagetable mem va max).1 = -1 := by
  have hnone : userStr m pagetable mem va max = none := by
    cases hs : userStr m pagetable mem va max with
    | none => rfl
    | some s =>
      obtain ⟨bs, -, hbs⟩ := (userStr_eq_some_iff m pagetable mem max va s).mp hs
      exact absurd hbs (h bs)
  have h1 := (copyinstr_userStr m pagetable mem max va).1
  rwa [hnone, Option.isSome_none, if_neg Bool.false_ne_true] at h1

theorem fetchstr_of_strAt {va max : ℕ} {bs : List UInt8} (h : StrAt m pagetable mem va max bs) :
    fetchstr m pagetable mem va max = bs.length := by
  rw [fetchstr, copyinstr_of_strAt m pagetable mem h, if_neg (lt_irrefl 0),
    strlen_append_nul h.noNul]

theorem fetchstr_of_not_strAt {va max : ℕ} (h : ∀ bs, ¬ StrAt m pagetable mem va max bs) :
    fetchstr m pagetable mem va max = -1 := by
  rw [fetchstr, copyinstr_of_not_strAt m pagetable mem h, if_pos (by norm_num)]

/-- `copyinstr` returns `0` exactly when user memory holds a string and its NUL within `max` bytes
in user pages; it then stores exactly them at `dst`, and `fetchstr` returns the string's length,
below `max`.  Otherwise it returns `-1` having stored at most `max` bytes, and `fetchstr` returns
`-1`. -/
theorem copyinstr_fetchstr (srcva max : ℕ) :
    ((copyinstr m pagetable mem srcva max).1 = 0 ↔ ∃ bs, StrAt m pagetable mem srcva max bs) ∧
      (∀ bs, StrAt m pagetable mem srcva max bs →
        copyinstr m pagetable mem srcva max = (0, bs ++ [0]) ∧
          fetchstr m pagetable mem srcva max = bs.length ∧ bs.length < max) ∧
      ((∀ bs, ¬ StrAt m pagetable mem srcva max bs) →
        (copyinstr m pagetable mem srcva max).1 = -1 ∧
          (copyinstr m pagetable mem srcva max).2.length ≤ max ∧
          fetchstr m pagetable mem srcva max = -1) := by
  refine ⟨⟨fun h0 => ?_, fun ⟨bs, h⟩ => by rw [copyinstr_of_strAt m pagetable mem h]⟩,
    fun bs h => ⟨copyinstr_of_strAt m pagetable mem h, fetchstr_of_strAt m pagetable mem h, h.short⟩,
    fun h => ⟨copyinstr_of_not_strAt m pagetable mem h,
      (copyinstr_userStr m pagetable mem max srcva).2.2, fetchstr_of_not_strAt m pagetable mem h⟩⟩
  -- a return of `0` cannot come without a string: that would be `-1`
  by_contra hno
  have := copyinstr_of_not_strAt m pagetable mem (fun bs h => hno ⟨bs, h⟩)
  omega

/-- On a string that user memory holds at `va`, NUL after it, `fetchstr` with bound `max` returns
the string's length when it is below `max` and `-1` otherwise.  With `max = MAXPATH` this is the
check `maxPath ≤ path.length` of the path calls of `Fs/Syscall.lean`: a name whose NUL falls just
beyond a `MAXPATH`-byte buffer is refused. -/
theorem fetchstr_of_string {va max : ℕ} {bs : List UInt8} (h0 : 0 ∉ bs)
    (hbytes : ∀ j (hj : j < bs.length), userByte m pagetable mem (va + j) = some bs[j])
    (hnul : userByte m pagetable mem (va + bs.length) = some 0) :
    fetchstr m pagetable mem va max = if bs.length < max then (bs.length : ℤ) else -1 := by
  by_cases hlt : bs.length < max
  · rw [if_pos hlt, fetchstr_of_strAt m pagetable mem ⟨hlt, h0, hbytes, hnul⟩]
  · rw [if_neg hlt]
    apply fetchstr_of_not_strAt
    -- a shorter string would end at a byte of `bs`, which is not NUL
    intro bs' h
    have hk : bs'.length < bs.length := by have := h.short; omega
    have hsame := (h.nul).symm.trans (hbytes _ hk)
    exact h0 (Option.some.inj hsame ▸ List.getElem_mem hk)

/-- A string that runs into a page `walkaddr` refuses before its NUL is refused. -/
theorem fetchstr_runs_off {va max k : ℕ} (hk : userByte m pagetable mem (va + k) = none)
    (hbefore : ∀ j < k, ∃ b, b ≠ 0 ∧ userByte m pagetable mem (va + j) = some b) :
    fetchstr m pagetable mem va max = -1 := by
  apply fetchstr_of_not_strAt
  intro bs h
  rcases lt_trichotomy bs.length k with hlt | heq | hgt
  -- the NUL would be one of the bytes before `va + k`, none of which is NUL
  · obtain ⟨b, hb, hbyte⟩ := hbefore _ hlt
    rw [h.nul, Option.some.injEq] at hbyte
    exact hb hbyte.symm
  -- the NUL, or a byte of the string, would be the byte at `va + k`, which is not there
  · have hnul := h.nul
    rw [heq, hk] at hnul
    exact absurd hnul (by simp)
  · rw [h.bytes k hgt] at hk
    exact absurd hk (by simp)

/-! ### What `copyin` reads -/

/-- After a page `walkaddr` accepts, `copyin` goes on at the address just after the bytes it took
from that page: the page lies below `MAXVA`, so its successor does not wrap. -/
theorem copyin_next {srcva len : ℕ} (hw : walkaddr m pagetable (pgrounddown srcva) ≠ 0) :
    copyin m pagetable mem ((pgrounddown srcva + pgSize) % 2 ^ 64)
        (len - min (pgSize - (srcva - pgrounddown srcva)) len) =
      copyin m pagetable mem (srcva + min (pgSize - (srcva - pgrounddown srcva)) len)
        (len - min (pgSize - (srcva - pgrounddown srcva)) len) := by
  have hoff := sub_pgrounddown_lt srcva
  have hle : pgrounddown srcva ≤ srcva := Nat.sub_le _ _
  rw [next_page_lt ((walkaddr_ne_zero_iff m pagetable _).mp hw).1]
  by_cases hfull : min (pgSize - (srcva - pgrounddown srcva)) len = len
  -- the page held the rest of the range: nothing is left to copy from either address
  · rw [hfull, Nat.sub_self, copyin, copyin, if_pos rfl, if_pos rfl]
  · rw [show srcva + min (pgSize - (srcva - pgrounddown srcva)) len = pgrounddown srcva + pgSize
      by omega]

/-- `copyin` returns `0` or `-1`; it copies at most `len` bytes, and all of them when it returns
`0`. -/
theorem copyin_length : ∀ (len srcva : ℕ),
    ((copyin m pagetable mem srcva len).1 = 0 ∨ (copyin m pagetable mem srcva len).1 = -1) ∧
      (copyin m pagetable mem srcva len).2.length ≤ len ∧
      ((copyin m pagetable mem srcva len).1 = 0 → (copyin m pagetable mem srcva len).2.length = len)
  := by
  intro len
  induction len using Nat.strong_induction_on with
  | _ len ih =>
    intro srcva
    rw [copyin]
    by_cases hlen : len = 0
    · simp [hlen]
    by_cases hw : walkaddr m pagetable (pgrounddown srcva) = 0
    · simp [hlen, hw]
    · have hoff := sub_pgrounddown_lt srcva
      simp only [hlen, hw, if_false]
      obtain ⟨h1, h2, h3⟩ := ih (len - min (pgSize - (srcva - pgrounddown srcva)) len) (by omega)
        ((pgrounddown srcva + pgSize) % 2 ^ 64)
      refine ⟨h1, ?_, fun h0 => ?_⟩
      · simp only [List.length_append, List.length_map, List.length_range]
        omega
      · simp only [List.length_append, List.length_map, List.length_range, h3 h0]
        omega

/-- Each byte `copyin` copies, also before a fault, is the byte user memory holds at its
address. -/
theorem copyin_bytes : ∀ (len srcva k : ℕ) (hk : k < (copyin m pagetable mem srcva len).2.length),
    userByte m pagetable mem (srcva + k) = some (copyin m pagetable mem srcva len).2[k] := by
  intro len
  induction len using Nat.strong_induction_on with
  | _ len ih =>
    intro srcva k hk
    by_cases hlen : len = 0
    · simp [copyin, hlen] at hk
    by_cases hw : walkaddr m pagetable (pgrounddown srcva) = 0
    · simp [copyin, hlen, hw] at hk
    have hoff := sub_pgrounddown_lt srcva
    set n := min (pgSize - (srcva - pgrounddown srcva)) len with hn
    have heq : (copyin m pagetable mem srcva len).2 =
        (List.range n).map (fun k => mem (walkaddr m pagetable (pgrounddown srcva) +
          (srcva - pgrounddown srcva) + k)) ++ (copyin m pagetable mem (srcva + n) (len - n)).2 := by
      rw [copyin, if_neg hlen, if_neg hw]
      exact congrArg (_ ++ ·.2) (copyin_next m pagetable mem hw)
    simp only [heq, List.length_append, List.length_map, List.length_range] at hk ⊢
    by_cases hkn : k < n
    -- a byte of the first page
    · rw [List.getElem_append_left (by simpa using hkn), List.getElem_map, List.getElem_range]
      exact userByte_page m pagetable mem hw (by omega)
    -- a byte of the rest, which `copyin` reads from `srcva + n` on
    · rw [List.getElem_append_right (by simpa using hkn)]
      have hrest := ih (len - n) (by omega) (srcva + n) (k - n)
      simp only [List.length_map, List.length_range] at hrest ⊢
      rw [← hrest (by omega), show srcva + n + (k - n) = srcva + k by omega]

/-- The bytes user memory holds lie below `MAXVA`. -/
theorem lt_of_userByte {va : ℕ} {b : UInt8} (h : userByte m pagetable mem va = some b) :
    va < maxVa := by
  unfold userByte at h
  split_ifs at h with hw
  have hlt := ((walkaddr_ne_zero_iff m pagetable _).mp hw).1
  unfold pgrounddown maxVa pgSize at *
  omega

end

end Xv6.Vm
