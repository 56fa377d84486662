import Mathlib

/-!
# `grep` (`user/grep.c`)

`grep pattern` prints the lines of its input that match `pattern`, with the matcher of Kernighan
and Pike: `match` tries `matchhere` at each suffix of the text (only the text itself after a
leading `^`); `matchhere` reads the pattern one item at a time; `matchstar` tries `c*` against
each prefix of `c`s.  Strings are the characters before their NUL.

`matchstar(c, re, text)` is `matchstarLoop (matchhere re) c text`: its `do`-`while` loop over
`text`, with `matchhere(re, ·)` for the test.  `matchhere` then recurses structurally on the
pattern and `matchstarLoop` on the text, so the three functions terminate on every input.

* `Item`, `items`, `Here`, `Matches`: what a pattern means, item by item: a character that
  matches itself (`.` any character), a starred one that matches any number of them, and a `$`
  that ends the pattern and matches the end of the text;
* `matchstarLoop_iff`, `matchhere_iff`, `matchRe_iff`: the matcher decides exactly that meaning.

The input of `grep` arrives in chunks, and `read` returns at most the bytes it is asked for of
the next one, so every way of splitting the input into reads is a list of chunks.

* `grep_printed`: when every line has at most `sizeof(buf) - 2` bytes and no NUL, `grep` writes
  exactly the matching lines, each once and in order, however the input is split;
* `grep_long_line`, `grep_nul_drops`: a line of `sizeof(buf) - 1` bytes, or a NUL before a
  newline, stops `grep`, and nothing after it is written.
-/

namespace Xv6.Grep

/-! ### The matcher -/

/-- The `do`-`while` loop of `matchstar(c, re, text)`, with `here` for `matchhere(re, ·)`: try
the rest of the pattern here, then step over one character that `c` matches. -/
def matchstarLoop (here : List Char → Bool) (c : Char) : List Char → Bool
  | [] => here []
  | t :: text => here (t :: text) || ((t == c || c == '.') && matchstarLoop here c text)

/-- `matchhere(re, text)`: whether `re` matches at the beginning of `text`. -/
def matchhere : List Char → List Char → Bool
  | [], _ => true
  | c :: '*' :: re, text => matchstarLoop (matchhere re) c text
  | ['$'], text => text.isEmpty
  | c :: re, t :: text => (c == '.' || c == t) && matchhere re text
  | _ :: _, [] => false

/-- `matchstar(c, re, text)`: whether `c*re` matches at the beginning of `text`. -/
def matchstar (c : Char) (re text : List Char) : Bool := matchstarLoop (matchhere re) c text

/-- The `do`-`while` loop of `match` over the suffixes of `text`, the empty one included. -/
def matchLoop (re : List Char) : List Char → Bool
  | [] => matchhere re []
  | t :: text => matchhere re (t :: text) || matchLoop re text

/-- `match(re, text)`. -/
def matchRe : List Char → List Char → Bool
  | '^' :: re, text => matchhere re text
  | re, text => matchLoop re text

/-! ### What a pattern means -/

/-- One item of a pattern. -/
inductive Item
  /-- A character: `.` matches any character, any other character itself. -/
  | one (c : Char)
  /-- `c*`: any number of characters that `c` matches. -/
  | star (c : Char)
  /-- A `$` that ends the pattern: the end of the text. -/
  | eol
  deriving DecidableEq

/-- The items of a pattern: a character followed by `*` is starred, and a `$` is the end of the
text only as the last character. -/
def items : List Char → List Item
  | [] => []
  | c :: '*' :: re => .star c :: items re
  | ['$'] => [.eol]
  | c :: re => .one c :: items re

/-- The pattern character `c` matches the text character `t`. -/
def Accepts (c t : Char) : Prop := c = '.' ∨ c = t

/-- `Here p text`: the items `p` match a prefix of `text`. -/
inductive Here : List Item → List Char → Prop
  | nil (text : List Char) : Here [] text
  | eol : Here [.eol] []
  | one {c t : Char} {p : List Item} {text : List Char} :
      Accepts c t → Here p text → Here (.one c :: p) (t :: text)
  | starNil {c : Char} {p : List Item} {text : List Char} :
      Here p text → Here (.star c :: p) text
  | starCons {c t : Char} {p : List Item} {text : List Char} :
      Accepts c t → Here (.star c :: p) text → Here (.star c :: p) (t :: text)

/-- `Matches re text`: some suffix of `text` has a prefix that `re` matches; after a leading `^`,
`text` itself. -/
def Matches : List Char → List Char → Prop
  | '^' :: re, text => Here (items re) text
  | re, text => ∃ k ≤ text.length, Here (items re) (text.drop k)

section Here

variable {c t : Char} {p : List Item} {text : List Char}

theorem accepts_iff : (c == '.' || c == t) = true ↔ Accepts c t := by
  simp [Accepts]

theorem accepts_iff' : (t == c || c == '.') = true ↔ Accepts c t := by
  simp only [Bool.or_eq_true, beq_iff_eq, Accepts]
  constructor
  · rintro (h | h)
    · exact .inr h.symm
    · exact .inl h
  · rintro (h | h)
    · exact .inr h
    · exact .inl h.symm

theorem here_eol_iff : Here [.eol] text ↔ text = [] := by
  constructor
  · intro h
    cases h
    rfl
  · rintro rfl
    exact .eol

theorem not_here_one_nil : ¬ Here (.one c :: p) [] := by
  intro h
  cases h

theorem here_one_cons : Here (.one c :: p) (t :: text) ↔ Accepts c t ∧ Here p text := by
  constructor
  · intro h
    cases h with
    | one hc hp => exact ⟨hc, hp⟩
  · rintro ⟨hc, hp⟩
    exact .one hc hp

theorem here_star_nil : Here (.star c :: p) [] ↔ Here p [] := by
  constructor
  · intro h
    cases h with
    | starNil hp => exact hp
  · exact .starNil

theorem here_star_cons :
    Here (.star c :: p) (t :: text) ↔ Here p (t :: text) ∨ Accepts c t ∧ Here (.star c :: p) text := by
  constructor
  · intro h
    cases h with
    | starNil hp => exact .inl hp
    | starCons hc hp => exact .inr ⟨hc, hp⟩
  · rintro (hp | ⟨hc, hp⟩)
    · exact .starNil hp
    · exact .starCons hc hp

end Here

/-- `matchstar` decides `c*` followed by what `here` decides, by induction on the text. -/
theorem matchstarLoop_iff {here : List Char → Bool} {c : Char} {p : List Item}
    (h : ∀ text, here text = true ↔ Here p text) :
    ∀ text, matchstarLoop here c text = true ↔ Here (.star c :: p) text
  | [] => by rw [matchstarLoop, h, here_star_nil]
  | t :: text => by
    rw [matchstarLoop, here_star_cons, Bool.or_eq_true, Bool.and_eq_true, h, accepts_iff',
      matchstarLoop_iff h text]

/-- `matchhere` on a pattern that starts with a character that is neither starred nor a final
`$`. -/
theorem matchhere_one {c : Char} {re : List Char} (hre : ∀ r, re ≠ '*' :: r)
    (hc : c = '$' → re ≠ []) (t : Char) (text : List Char) :
    matchhere (c :: re) (t :: text) = ((c == '.' || c == t) && matchhere re text) :=
  matchhere.eq_4 c re t text hre hc

theorem matchhere_one_nil {c : Char} {re : List Char} (hre : ∀ r, re ≠ '*' :: r)
    (hc : c = '$' → re ≠ []) : matchhere (c :: re) [] = false :=
  matchhere.eq_5 c re hre hc

theorem items_one {c : Char} {re : List Char} (hre : ∀ r, re ≠ '*' :: r)
    (hc : c = '$' → re ≠ []) : items (c :: re) = .one c :: items re :=
  items.eq_4 c re hre hc

/-- `matchhere` decides the items of the pattern, by recursion on the pattern as `matchhere`
reads it: a starred character, a final `$`, or a plain character. -/
theorem matchhere_iff : ∀ (re text : List Char), matchhere re text = true ↔ Here (items re) text
  | [], text => by
    simp only [matchhere, items, true_iff]
    exact .nil text
  | c :: re, text => by
    by_cases hs : ∃ r, re = '*' :: r
    · obtain ⟨r, rfl⟩ := hs
      simp only [matchhere, items]
      exact matchstarLoop_iff (matchhere_iff r) text
    · have hre : ∀ r, re ≠ '*' :: r := fun r h => hs ⟨r, h⟩
      by_cases he : c = '$' ∧ re = []
      · obtain ⟨rfl, rfl⟩ := he
        simp only [matchhere, items, List.isEmpty_iff, here_eol_iff]
      · have hc : c = '$' → re ≠ [] := fun h h' => he ⟨h, h'⟩
        rw [items_one hre hc]
        cases text with
        | nil =>
          rw [matchhere_one_nil hre hc]
          exact ⟨fun h => absurd h Bool.false_ne_true, fun h => absurd h not_here_one_nil⟩
        | cons t text =>
          rw [matchhere_one hre hc, Bool.and_eq_true, accepts_iff, here_one_cons,
            matchhere_iff re text]

/-- A suffix of `t :: text` is the whole of it or a suffix of `text`. -/
theorem exists_drop_cons {P : List Char → Prop} (t : Char) (text : List Char) :
    (∃ k ≤ (t :: text).length, P ((t :: text).drop k)) ↔
      P (t :: text) ∨ ∃ k ≤ text.length, P (text.drop k) := by
  constructor
  · rintro ⟨k, hk, hp⟩
    cases k with
    | zero => exact .inl hp
    | succ k => exact .inr ⟨k, by simpa using hk, hp⟩
  · rintro (hp | ⟨k, hk, hp⟩)
    · exact ⟨0, Nat.zero_le _, hp⟩
    · exact ⟨k + 1, by simpa using hk, hp⟩

/-- The loop of `match` tries `matchhere` at every suffix of the text, by induction on the
text. -/
theorem matchLoop_iff (re : List Char) :
    ∀ text, matchLoop re text = true ↔ ∃ k ≤ text.length, Here (items re) (text.drop k)
  | [] => by
    rw [matchLoop, matchhere_iff]
    constructor
    · intro h
      exact ⟨0, Nat.le_refl 0, h⟩
    · rintro ⟨k, -, h⟩
      rwa [List.drop_nil] at h
  | t :: text => by
    rw [matchLoop, Bool.or_eq_true, matchhere_iff, matchLoop_iff re text, exists_drop_cons]

/-- `match(re, text)` returns `1` exactly when `re` matches a prefix of some suffix of `text`, or
of `text` itself after a leading `^`. -/
theorem matchRe_iff (re text : List Char) : matchRe re text = true ↔ Matches re text := by
  by_cases hc : ∃ r, re = '^' :: r
  · obtain ⟨r, rfl⟩ := hc
    rw [matchRe, Matches, matchhere_iff]
  · have hre : ∀ r, re ≠ '^' :: r := fun r h => hc ⟨r, h⟩
    rw [matchRe.eq_2 re text hre, Matches.eq_2 re text hre, matchLoop_iff]

example : matchRe "^a.*b$".toList "axxb".toList = true := by decide
example : matchRe "a*$".toList "baa".toList = true := by decide
example : matchRe "^b".toList "ab".toList = false := by decide

/-! ### The loop of `grep` -/

/-- `sizeof(buf)`. -/
def bufSize : ℕ := 1024

/-- `strchr(s, c)` of `user/ulib.c`: the index of the first `c` before the first NUL. -/
def strchr : List Char → Char → Option ℕ
  | [], _ => none
  | x :: s, c => if x = '\x00' then none else if x = c then some 0 else (strchr s c).map (· + 1)

theorem strchr_lt : ∀ {s : List Char} {c : Char} {i : ℕ}, strchr s c = some i → i < s.length
  | [], _, _, h => by cases h
  | x :: s, c, i, h => by
    rw [strchr] at h
    split_ifs at h with hx hxc
    · cases h
      exact Nat.zero_lt_succ _
    · obtain ⟨j, hj, rfl⟩ := Option.map_eq_some_iff.1 h
      exact Nat.succ_lt_succ (strchr_lt hj)

/-- The inner loop of `grep` over the bytes from `p` to the NUL at `buf + m`: each line that a
newline ends is written with its newline when it matches.  Returns the bytes written and the
bytes left from `p`. -/
def scanLines (pattern p : List Char) : List Char × List Char :=
  match h : strchr p '\n' with
  | none => ([], p)
  | some i =>
    let line := p.take i
    let next := scanLines pattern (p.drop (i + 1))
    ((if matchRe pattern line then line ++ ['\n'] else []) ++ next.1, next.2)
termination_by p.length
decreasing_by
  have := strchr_lt h
  simp only [List.length_drop]
  omega

/-- `read(fd, buf + m, n)` on an input that arrives in `chunks`: at most `n` bytes of the first
chunk, and none at the end of the input. -/
def read : List (List Char) → ℕ → List Char × List (List Char)
  | [], _ => ([], [])
  | c :: cs, n => if n < c.length then (c.take n, c.drop n :: cs) else (c, cs)

theorem read_length (chunks : List (List Char)) (n : ℕ) :
    (read chunks n).1.length + ((read chunks n).2.map List.length).sum =
      (chunks.map List.length).sum := by
  cases chunks with
  | nil => rfl
  | cons c cs =>
    rw [read]
    split_ifs with hn
    · simp only [List.length_take, List.map_cons, List.sum_cons, List.length_drop]
      omega
    · simp only [List.map_cons, List.sum_cons]

/-- The outer loop of `grep(pattern, fd)`, with the `m` bytes `buf` carried over: the bytes
written to fd 1.  A read of `n > 0` bytes makes `m > 0`, so the bytes from `p` are always moved
to the front of `buf`. -/
def grepLoop (pattern buf : List Char) (chunks : List (List Char)) : List Char :=
  if 0 < (read chunks (bufSize - buf.length - 1)).1.length then
    let got := read chunks (bufSize - buf.length - 1)
    let scanned := scanLines pattern (buf ++ got.1)
    scanned.1 ++ grepLoop pattern scanned.2 got.2
  else []
termination_by (chunks.map List.length).sum
decreasing_by
  have := read_length chunks (bufSize - buf.length - 1)
  omega

/-- `grep(pattern, fd)`: the bytes written to fd 1. -/
def grep (pattern : List Char) (chunks : List (List Char)) : List Char := grepLoop pattern [] chunks

/-! ### What `grep` writes -/

/-- The lines `L`, each followed by a newline. -/
def joined (L : List (List Char)) : List Char := L.flatMap (· ++ ['\n'])

/-- What `grep` should write for the newline-terminated lines `L`: each line that matches, with
its newline, in order. -/
def printed (pattern : List Char) (L : List (List Char)) : List Char :=
  joined (L.filter (matchRe pattern))

theorem joined_cons (l : List Char) (L : List (List Char)) :
    joined (l :: L) = l ++ '\n' :: joined L := by
  simp [joined]

theorem printed_cons (pattern l : List Char) (L : List (List Char)) :
    printed pattern (l :: L) =
      (if matchRe pattern l then l ++ ['\n'] else []) ++ printed pattern L := by
  unfold printed
  rw [List.filter_cons]
  split_ifs <;> simp [joined]

theorem printed_append (pattern : List Char) (L L' : List (List Char)) :
    printed pattern (L ++ L') = printed pattern L ++ printed pattern L' := by
  simp [printed, joined, List.filter_append]

theorem strchr_newline : ∀ {l : List Char} (z : List Char), '\n' ∉ l → '\x00' ∉ l →
    strchr (l ++ '\n' :: z) '\n' = some l.length
  | [], z, _, _ => by
    rw [List.nil_append, strchr, if_neg (by decide), if_pos rfl, List.length_nil]
  | x :: l, z, hn, h0 => by
    have hx0 : x ≠ '\x00' := fun h => h0 (by simp [h])
    have hxn : x ≠ '\n' := fun h => hn (by simp [h])
    rw [List.cons_append, strchr, if_neg hx0, if_neg hxn,
      strchr_newline z (fun h => hn (List.mem_cons_of_mem _ h))
        (fun h => h0 (List.mem_cons_of_mem _ h))]
    rfl

theorem strchr_none : ∀ {s : List Char}, '\n' ∉ s → strchr s '\n' = none
  | [], _ => rfl
  | x :: s, h => by
    rw [strchr]
    split_ifs with hx hxn
    · rfl
    · exact absurd (hxn ▸ List.mem_cons_self) h
    · rw [strchr_none (fun hm => h (List.mem_cons_of_mem _ hm))]
      rfl

theorem scanLines_of_none {pattern p : List Char} (h : strchr p '\n' = none) :
    scanLines pattern p = ([], p) := by
  rw [scanLines]
  split
  · rfl
  · rename_i i hi
    rw [h] at hi
    cases hi

theorem scanLines_of_some {pattern p : List Char} {i : ℕ} (h : strchr p '\n' = some i) :
    scanLines pattern p = ((if matchRe pattern (p.take i) then p.take i ++ ['\n'] else []) ++
      (scanLines pattern (p.drop (i + 1))).1, (scanLines pattern (p.drop (i + 1))).2) := by
  rw [scanLines]
  split
  · rename_i hi
    rw [h] at hi
    cases hi
  · rename_i j hj
    rw [h] at hj
    cases hj
    rfl

/-- The inner loop writes the matching lines among those the buffer holds, and leaves the bytes
after the last newline, by induction on the lines. -/
theorem scanLines_joined (pattern : List Char) : ∀ (L : List (List Char)) (y : List Char),
    (∀ l ∈ L, '\n' ∉ l ∧ '\x00' ∉ l) → '\n' ∉ y →
      scanLines pattern (joined L ++ y) = (printed pattern L, y)
  | [], y, _, hy => scanLines_of_none (strchr_none hy)
  | l :: L, y, hL, hy => by
    obtain ⟨hn, h0⟩ := hL l List.mem_cons_self
    have hrest := scanLines_joined pattern L y (fun l' hl' => hL l' (List.mem_cons_of_mem _ hl')) hy
    have hdrop : (l ++ '\n' :: (joined L ++ y)).drop (l.length + 1) = joined L ++ y := by
      rw [← List.singleton_append, ← List.append_assoc, List.drop_left' (by simp)]
    rw [joined_cons, List.append_assoc, List.cons_append, scanLines_of_some (strchr_newline _ hn h0),
      List.take_left' rfl, hdrop, hrest, printed_cons]

/-- A prefix of the lines `L` followed by `t` is some of the lines followed by a part `y` of the
next line (or of `t`), by induction on the lines. -/
theorem prefix_joined (t : List Char) (ht : '\n' ∉ t) : ∀ (L : List (List Char)) (p rest : List Char),
    (∀ l ∈ L, '\n' ∉ l) → p ++ rest = joined L ++ t →
      ∃ L₁ L₂ y, L = L₁ ++ L₂ ∧ p = joined L₁ ++ y ∧ '\n' ∉ y ∧ y ++ rest = joined L₂ ++ t
  | [], p, rest, _, h => by
    refine ⟨[], [], p, rfl, rfl, fun hp => ht ?_, h⟩
    rw [joined, List.flatMap_nil, List.nil_append] at h
    exact h ▸ List.mem_append_left rest hp
  | l :: L, p, rest, hL, h => by
    have hl := hL l List.mem_cons_self
    rw [joined_cons, List.append_assoc, List.cons_append] at h
    rcases List.append_eq_append_iff.1 h with ⟨a, hla, hrest⟩ | ⟨c, rfl, hc⟩
    · -- `p` ends inside the first line
      refine ⟨[], l :: L, p, rfl, rfl, fun hp => hl (hla ▸ List.mem_append_left a hp), ?_⟩
      rw [hrest, joined_cons, hla, List.append_assoc, List.append_assoc, List.cons_append]
    · cases c with
      | nil =>
        refine ⟨[], l :: L, l, rfl, by simp [joined], hl, ?_⟩
        rw [List.nil_append] at hc
        rw [← hc, joined_cons, List.append_assoc, List.cons_append]
      | cons x c =>
        -- `p` runs past the first newline
        rw [List.cons_append, List.cons.injEq] at hc
        obtain ⟨rfl, hc⟩ := hc
        obtain ⟨L₁, L₂, y, rfl, rfl, hy, hrest⟩ :=
          prefix_joined t ht L c rest (fun l' hl' => hL l' (List.mem_cons_of_mem _ hl')) hc.symm
        exact ⟨l :: L₁, L₂, y, rfl, by rw [joined_cons]; simp, hy, hrest⟩

/-- Bytes without a newline that start the lines `l :: L` lie within the line `l`, and more
input follows them. -/
theorem length_le_line {buf rest l z : List Char} (hbuf : '\n' ∉ buf)
    (h : buf ++ rest = l ++ '\n' :: z) : buf.length ≤ l.length ∧ rest ≠ [] := by
  rcases List.append_eq_append_iff.1 h with ⟨a, rfl, hrest⟩ | ⟨c, rfl, hc⟩
  · refine ⟨by simp, ?_⟩
    rw [hrest]
    simp
  · cases c with
    | nil =>
      rw [List.nil_append] at hc
      exact ⟨by simp, hc ▸ List.cons_ne_nil _ _⟩
    | cons x c =>
      rw [List.cons_append, List.cons.injEq] at hc
      obtain ⟨rfl, -⟩ := hc
      exact absurd (List.mem_append_right l List.mem_cons_self) hbuf

theorem read_flatten : ∀ (chunks : List (List Char)) (n : ℕ),
    (read chunks n).1 ++ (read chunks n).2.flatten = chunks.flatten
  | [], _ => rfl
  | c :: cs, n => by
    rw [read]
    split_ifs
    · simp only [List.flatten_cons, ← List.append_assoc, List.take_append_drop]
    · rfl

theorem length_read_le : ∀ (chunks : List (List Char)) (n : ℕ), (read chunks n).1.length ≤ n
  | [], _ => Nat.zero_le _
  | c :: cs, n => by
    rw [read]
    split_ifs with hn
    · exact List.length_take_le _ _
    · exact Nat.le_of_not_lt hn

theorem read_ne_nil {chunks : List (List Char)} (hc : ∀ c ∈ chunks, c ≠ []) (n : ℕ) :
    ∀ c ∈ (read chunks n).2, c ≠ [] := by
  cases chunks with
  | nil => simp [read]
  | cons c cs =>
    rw [read]
    split_ifs with hn
    · intro d hd
      rcases List.mem_cons.1 hd with rfl | hd
      · exact List.ne_nil_of_length_pos (by simp; omega)
      · exact hc d (List.mem_cons_of_mem _ hd)
    · exact fun d hd => hc d (List.mem_cons_of_mem _ hd)

/-- A read of `n > 0` bytes from an input that has not ended returns some bytes. -/
theorem length_read_pos {c : List Char} {cs : List (List Char)} (hc : c ≠ []) {n : ℕ}
    (hn : 0 < n) : 0 < (read (c :: cs) n).1.length := by
  have := List.length_pos_of_ne_nil hc
  rw [read]
  split_ifs
  · simp only [List.length_take]
    omega
  · exact this

/-- The loop of `grep` writes the matching lines of what is left of the input, when each line
fits the buffer with its newline and has no NUL.  By induction along the loop: each read brings
some bytes, the inner loop writes the lines they complete, and the part of a line it leaves
is shorter than the buffer. -/
theorem grepLoop_printed (pattern t : List Char) (ht : '\n' ∉ t) :
    ∀ (buf : List Char) (chunks : List (List Char)) (L : List (List Char)),
      (∀ l ∈ L, '\n' ∉ l ∧ '\x00' ∉ l ∧ l.length < bufSize - 1) → (∀ c ∈ chunks, c ≠ []) →
      '\n' ∉ buf → buf.length < bufSize → buf ++ chunks.flatten = joined L ++ t →
        grepLoop pattern buf chunks = printed pattern L := by
  intro buf chunks L hL hc hbuf hlen hin
  rw [grepLoop]
  split_ifs with hgot
  · have hread := read_flatten chunks (bufSize - buf.length - 1)
    have hle := length_read_le chunks (bufSize - buf.length - 1)
    obtain ⟨L₁, L₂, y, rfl, hp, hy, hrest⟩ := prefix_joined t ht L _ _
      (fun l hl => (hL l hl).1) (by rw [List.append_assoc, hread, hin])
    have hsub : ∀ l ∈ L₁, '\n' ∉ l ∧ '\x00' ∉ l := fun l hl =>
      ⟨(hL l (List.mem_append_left _ hl)).1, (hL l (List.mem_append_left _ hl)).2.1⟩
    have hylen : y.length < bufSize := by
      have := congrArg List.length hp
      simp only [List.length_append] at this
      unfold bufSize at *
      omega
    dsimp only
    rw [hp, scanLines_joined pattern L₁ y hsub hy, printed_append,
      grepLoop_printed pattern t ht y _ L₂ (fun l hl => hL l (List.mem_append_right _ hl))
        (read_ne_nil hc _) hy hylen hrest]
  · -- no bytes read: the input holds no more complete line
    cases L with
    | nil => rfl
    | cons l L =>
      exfalso
      rw [joined_cons, List.append_assoc, List.cons_append] at hin
      obtain ⟨hbl, hne⟩ := length_le_line hbuf hin
      cases chunks with
      | nil => exact hne rfl
      | cons c cs =>
        have hn : ¬ 0 < bufSize - buf.length - 1 := fun hn =>
          hgot (length_read_pos (hc c List.mem_cons_self) hn)
        have := (hL l List.mem_cons_self).2.2
        unfold bufSize at *
        omega
termination_by _ chunks => (chunks.map List.length).sum
decreasing_by
  have := read_length chunks (bufSize - buf.length - 1)
  omega

/-- For an input of newline-terminated lines `L`, each at most `sizeof(buf) - 2` bytes long and
without a NUL, followed by bytes `t` without a newline, `grep` writes exactly the lines of `L`
that match, each with its newline, in order, however `read` splits the input. -/
theorem grep_printed (pattern : List Char) {L : List (List Char)} {t : List Char}
    {chunks : List (List Char)} (hL : ∀ l ∈ L, '\n' ∉ l ∧ '\x00' ∉ l ∧ l.length < bufSize - 1)
    (ht : '\n' ∉ t) (hc : ∀ c ∈ chunks, c ≠ []) (hin : chunks.flatten = joined L ++ t) :
    grep pattern chunks = printed pattern L :=
  grepLoop_printed pattern t ht [] chunks L hL hc List.not_mem_nil (by decide)
    (by rw [List.nil_append, hin])

/-- A line cut by `read` in three places is written whole. -/
theorem grep_split_line : grep ['b'] [['a'], ['b', '\n', 'c'], ['\n']] = ['a', 'b', '\n'] := by
  rw [grep_printed ['b'] (L := [['a', 'b'], ['c']]) (t := []) (by decide) (by decide) (by decide)
    (by decide)]
  decide

theorem read_zero : ∀ chunks : List (List Char), (read chunks 0).1 = []
  | [] => rfl
  | c :: cs => by
    rw [read]
    split_ifs with hc
    · show c.take 0 = []
      exact List.take_zero
    · show c = []
      exact List.eq_nil_of_length_eq_zero (Nat.eq_zero_of_not_pos hc)

/-- Once `buf` holds `sizeof(buf) - 1` bytes, `grep` asks `read` for none, and stops. -/
theorem grepLoop_full (pattern buf : List Char) (chunks : List (List Char))
    (h : bufSize - 1 ≤ buf.length) : grepLoop pattern buf chunks = [] := by
  have hn : bufSize - buf.length - 1 = 0 := by omega
  rw [grepLoop, hn, read_zero, List.length_nil, if_neg (Nat.lt_irrefl 0)]

/-- A line of `sizeof(buf) - 1` bytes fills `buf` before its newline arrives: `grep` asks
`read` for no more bytes, stops, and writes nothing of what follows. -/
theorem grep_long_line (pattern : List Char) {l : List Char} (z : List Char) (hl : '\n' ∉ l)
    (hlen : l.length = bufSize - 1) : grep pattern [l ++ '\n' :: z] = [] := by
  have hread : read [l ++ '\n' :: z] (bufSize - 0 - 1) = (l, ['\n' :: z]) := by
    rw [read, if_pos (by simp [hlen]), List.take_left' (by rw [hlen]; rfl),
      List.drop_left' (by rw [hlen]; rfl)]
  have hscan : scanLines pattern ([] ++ l) = ([], l) := scanLines_of_none (strchr_none hl)
  have hpos : 0 < l.length := by
    rw [hlen]
    decide
  rw [grep, grepLoop, List.length_nil, hread, if_pos hpos]
  dsimp only
  rw [hscan, grepLoop_full _ _ _ (Nat.le_of_eq hlen.symm), List.nil_append]

/-- The input of a line of 1023 `a`s and a line `x`: `grep '^x'` writes nothing, where the
matching line `x` was due. -/
theorem grep_long_line_drops :
    grep ['^', 'x'] [List.replicate 1023 'a' ++ ['\n', 'x', '\n']] = [] ∧
      printed ['^', 'x'] [List.replicate 1023 'a', ['x']] = ['x', '\n'] :=
  ⟨grep_long_line _ _ (by rw [List.mem_replicate]; decide) List.length_replicate, by decide⟩

/-- A NUL before a newline stops `strchr`: that line is never completed, and neither is any line
after it. -/
theorem grep_nul_drops :
    grep ['x'] [['\x00', '\n', 'x', '\n']] = [] ∧ printed ['x'] [['\x00'], ['x']] = ['x', '\n'] := by
  refine ⟨?_, by decide⟩
  have hread : read [['\x00', '\n', 'x', '\n']] (bufSize - 0 - 1) = (['\x00', '\n', 'x', '\n'], []) := by
    rw [read, if_neg (by simp [bufSize])]
  have hscan : scanLines ['x'] ([] ++ ['\x00', '\n', 'x', '\n']) = ([], ['\x00', '\n', 'x', '\n']) :=
    scanLines_of_none rfl
  rw [grep, grepLoop, List.length_nil, hread, if_pos (by decide)]
  dsimp only
  rw [hscan, grepLoop, read, List.length_nil, if_neg (Nat.lt_irrefl 0), List.nil_append]

end Xv6.Grep
