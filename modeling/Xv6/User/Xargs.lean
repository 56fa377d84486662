import Xv6.Param

/-!
# `xargs` (`user/xargs.c`)

`xargs cmd args...` reads its standard input in chunks of at most `sizeof(line) = 512` bytes, cuts
each chunk into words at `' '` and `'\n'`, and runs `cmd` with its own arguments followed by the
words.  Each chunk is tokenized on its own: after `read` returns `n`, the store `line[n] = '\0'`
ends the chunk, and the scan starts again at `line[0]`.

A run is given by the program's arguments and the results of its `read(0, line, 512)` calls, in
order: a chunk of characters, `none` for a read that fails, and the end of the list for the read
that returns `0`.  `malloc` is taken to succeed, and the run ends at the child's `exec`.  The store
`line[n] = '\0'` is outside `line` for `n = MAX_LINE_LENGTH`; C leaves its effect undefined, and the
model ends the run there with `Outcome.overrun`.

* `scan_ok`: on a chunk without a NUL the inner loop appends the chunk's `words` to `args`;
* `loop_ok`: a stream of such chunks, each shorter than `line`, ends in `exec` of the arguments
  followed by the words of each chunk in turn; `main_ok`: when every chunk but the last ends at a
  separator these are the words of the whole stream;
* `loop_split`: a word that two reads cut in two is passed as two arguments;
  `loop_full_chunk`: a read of a full 512 bytes stores its `'\0'` outside `line`.
-/

namespace Xv6.Xargs

/-- `MAX_LINE_LENGTH`, the size of `line`. -/
def maxLineLength : ℕ := 512

/-- `*p == ' ' || *p == '\n'`: the characters between words. -/
def isSep (c : Char) : Bool := c == ' ' || c == '\n'

/-- `*p != ' ' && *p != '\n' && *p != '\0'`: the characters of a word. -/
def inWord (c : Char) : Bool := !isSep c && c != '\x00'

/-- What remains after the word at the head of a list is shorter than the list. -/
theorem length_dropWhile_inWord_lt {c : Char} (hc : inWord c) (q : List Char) :
    ((c :: q).dropWhile inWord).length < (c :: q).length := by
  rw [List.dropWhile_cons_of_pos hc, List.length_cons]
  exact Nat.lt_succ_of_le (List.dropWhile_suffix inWord).length_le

/-- The inner `while (*p != '\0')` loop of `main`, from `p` to the `'\0'` that ends `line`: it
skips separators, copies the word that follows into a fresh `arg` and appends it to `args`, and
fails once `args` holds `MAXARG - 1` entries. -/
def scan (args : List (List Char)) (p : List Char) : Except String (List (List Char)) :=
  match hp : p.dropWhile isSep with
  | [] => .ok args
  | c :: q =>
    if hc : c = '\x00' then .ok args
    else if maxArg - 1 ≤ args.length then .error "xargs: too many arguments\n"
    else scan (args ++ [(c :: q).takeWhile inWord]) ((c :: q).dropWhile inWord)
termination_by p.length
decreasing_by
  have hsep : isSep c = false := by
    simpa [hp] using List.head_dropWhile_not isSep (l := p) (by simp [hp])
  have hw : inWord c := by simp [inWord, hsep, hc]
  have hle : (c :: q).length ≤ p.length := by
    rw [← hp]
    exact (List.dropWhile_suffix isSep).length_le
  exact lt_of_lt_of_le (length_dropWhile_inWord_lt hw q) hle

/-- How a run of `xargs` ends. -/
inductive Outcome
  /-- The child's `exec(args[0], args)`, with the argument vector `args`. -/
  | exec (args : List (List Char))
  /-- `exit(1)` after `fprintf(2, msg)`. -/
  | exit (msg : String)
  /-- The store `line[n] = '\0'` with `n = MAX_LINE_LENGTH`, past the end of `line`. -/
  | overrun
  deriving DecidableEq, Repr

/-- The outer `while ((n = read(0, line, sizeof(line))))` loop, over what the reads return. -/
def loop (args : List (List Char)) : List (Option (List Char)) → Outcome
  | [] => .exec args
  | none :: _ => .exit "xargs: read error\n"
  | some chunk :: reads =>
    if maxLineLength ≤ chunk.length then .overrun
    else
      match scan args (chunk ++ ['\x00']) with
      | .error msg => .exit msg
      | .ok args => loop args reads

/-- `main(argc, argv)`: the arguments after `argv[0]` start `args`. -/
def main (argv : List (List Char)) (reads : List (Option (List Char))) : Outcome :=
  if argv.length < 2 then .exit "Usage: xargs <command> [args...]\n"
  else loop (argv.drop 1) reads

/-! ### The words of a text -/

/-- The words of a text: its maximal runs of characters other than `' '` and `'\n'`, in order. -/
def words (l : List Char) : List (List Char) := (l.splitOnP isSep).filter (!·.isEmpty)

@[simp] theorem words_nil : words [] = [] := by
  simp [words, List.splitOnP_nil]

theorem words_sep_cons {c : Char} (hc : isSep c) (l : List Char) : words (c :: l) = words l := by
  simp [words, List.splitOnP_cons_eq_if_modifyHead, hc]

/-- A separator cuts a text into two whose words follow each other. -/
theorem words_append_sep {x : Char} (hx : isSep x) (a b : List Char) :
    words (a ++ x :: b) = words a ++ words b := by
  simp only [words, List.splitOnP_append_cons a b hx, List.filter_append]

/-- Leading separators carry no words. -/
theorem words_dropWhile (l : List Char) : words (l.dropWhile isSep) = words l := by
  induction l with
  | nil => rfl
  | cons c l ih =>
    by_cases hc : isSep c
    · rw [List.dropWhile_cons_of_pos hc, ih, words_sep_cons hc]
    · rw [List.dropWhile_cons_of_neg hc]

/-- A text without separators is one word, or none when it is empty. -/
theorem words_of_forall {w : List Char} (hw : ∀ c ∈ w, isSep c = false) :
    words w = if w = [] then [] else [w] := by
  cases w with
  | nil => rfl
  | cons c w => simp [words, List.splitOnP_eq_singleton hw]

/-- A word followed by a separator or by the end of the text is the text's first word. -/
theorem words_word_append {w : List Char} (hne : w ≠ []) (hw : ∀ c ∈ w, isSep c = false)
    {r : List Char} (hr : ∀ x ∈ r.head?, isSep x) : words (w ++ r) = w :: words r := by
  cases r with
  | nil => simp [words_of_forall hw, hne]
  | cons x r =>
    have hx : isSep x := hr x rfl
    rw [words_append_sep hx, words_of_forall hw, if_neg hne, words_sep_cons hx]
    rfl

/-! ### The scan of one chunk -/

theorem dropWhile_append_stop {p : Char → Bool} (l : List Char) {x : Char} (hx : p x = false)
    (t : List Char) : (l ++ x :: t).dropWhile p = l.dropWhile p ++ x :: t := by
  induction l with
  | nil => simp [hx]
  | cons a l ih => by_cases ha : p a <;> simp [ha, ih]

theorem takeWhile_append_stop {p : Char → Bool} (l : List Char) {x : Char} (hx : p x = false)
    (t : List Char) : (l ++ x :: t).takeWhile p = l.takeWhile p := by
  induction l with
  | nil => simp [hx]
  | cons a l ih => by_cases ha : p a <;> simp [ha, ih]

/-- The word at the head of a text without NUL, and the words after it. -/
theorem words_cons_of_inWord {r : List Char} (hr : '\x00' ∉ r) {c : Char} {q : List Char}
    (hcq : r = c :: q) (hc : inWord c) :
    words r = r.takeWhile inWord :: words (r.dropWhile inWord) := by
  have hne : r.takeWhile inWord ≠ [] := by simp [hcq, List.takeWhile_cons_of_pos hc]
  have hw : ∀ x ∈ r.takeWhile inWord, isSep x = false := fun x hx => by
    have := List.all_eq_true.mp List.all_takeWhile x hx
    simp only [inWord, Bool.and_eq_true, Bool.not_eq_true'] at this
    exact this.1
  -- the word ends at a character outside `inWord`, which in a text without NUL is a separator
  have hrest : ∀ x ∈ (r.dropWhile inWord).head?, isSep x := fun x hx => by
    have hmem : x ∈ r := (List.dropWhile_suffix inWord).subset (List.mem_of_mem_head? hx)
    obtain ⟨t, ht⟩ := List.head?_eq_some_iff.mp hx
    have hnot := List.head_dropWhile_not inWord (l := r) (by simp [ht])
    simp only [ht, List.head_cons, inWord, Bool.and_eq_false_iff, Bool.not_eq_false',
      bne_eq_false_iff_eq] at hnot
    exact hnot.resolve_right (fun h => hr (h ▸ hmem))
  conv_lhs => rw [← List.takeWhile_append_dropWhile (p := inWord) (l := r)]
  exact words_word_append hne hw hrest

/-- On a chunk without NUL, followed by the `'\0'` that `main` stores after it, the inner loop
appends the chunk's words to `args` when they fit. -/
theorem scan_ok (t : List Char) (l : List Char) (args : List (List Char)) (hl : '\x00' ∉ l)
    (hn : args.length + (words l).length ≤ maxArg - 1) :
    scan args (l ++ '\x00' :: t) = .ok (args ++ words l) := by
  have hstop : isSep '\x00' = false := by decide
  have hsub : l.dropWhile isSep <:+ l := List.dropWhile_suffix isSep
  rw [scan, ← words_dropWhile l]
  rw [← words_dropWhile l] at hn
  -- the scan restarts at the first non-separator of `l`: the chunk's end, or the start of a word
  split
  · rename_i hp
    rw [dropWhile_append_stop l hstop] at hp
    simp at hp
  · rename_i c' q' hp
    rw [dropWhile_append_stop l hstop] at hp
    cases hr : l.dropWhile isSep with
    | nil =>
      rw [hr, List.nil_append] at hp
      obtain ⟨rfl, -⟩ := List.cons.inj hp
      simp
    | cons c q =>
      rw [hr, List.cons_append] at hp
      obtain ⟨hc', hq'⟩ := List.cons.inj hp
      subst hc' hq'
      have hc0 : c ≠ '\x00' := fun h => hl (hsub.subset (by simp [hr, h]))
      have hsep : isSep c = false := by
        simpa [hr] using List.head_dropWhile_not isSep (l := l) (by simp [hr])
      have hw : inWord c := by simp [inWord, hsep, hc0]
      have hq0 : '\x00' ∉ c :: q := fun h => hl (hsub.subset (hr ▸ h))
      have hwords := words_cons_of_inWord hq0 rfl hw
      rw [hr, hwords, List.length_cons] at hn
      have hstop' : inWord '\x00' = false := by decide
      rw [dif_neg hc0, if_neg (by omega), ← List.cons_append,
        takeWhile_append_stop _ hstop', dropWhile_append_stop _ hstop', hwords]
      have hq0' : '\x00' ∉ (c :: q).dropWhile inWord :=
        fun h => hq0 ((List.dropWhile_suffix inWord).subset h)
      have hlt : ((c :: q).dropWhile inWord).length < l.length :=
        lt_of_lt_of_le (length_dropWhile_inWord_lt hw q) (by rw [← hr]; exact hsub.length_le)
      rw [scan_ok t _ _ hq0' (by rw [List.length_append, List.length_singleton]; omega)]
      simp
termination_by l.length

/-! ### The run over the reads -/

/-- A stream of chunks without NUL, each shorter than `line`, whose words fit beside `args`, ends
in `exec` of `args` followed by the words of each chunk in turn. -/
theorem loop_ok (args : List (List Char)) (chunks : List (List Char))
    (hc : ∀ c ∈ chunks, c.length < maxLineLength ∧ '\x00' ∉ c)
    (hn : args.length + (chunks.flatMap words).length ≤ maxArg - 1) :
    loop args (chunks.map some) = .exec (args ++ chunks.flatMap words) := by
  induction chunks generalizing args with
  | nil => simp [loop]
  | cons c cs ih =>
    obtain ⟨hlen, hnul⟩ := hc c (by simp)
    simp only [List.flatMap_cons, List.length_append] at hn
    have hscan := scan_ok [] c args hnul (by omega)
    have hrest := ih (args ++ words c) (fun c' h => hc c' (by simp [h]))
      (by rw [List.length_append]; omega)
    simp only [List.map_cons, loop, if_neg (Nat.not_le.mpr hlen), hscan, hrest,
      List.flatMap_cons, List.append_assoc]

/-- Chunks that each end at a separator carry the words of the text they make up. -/
theorem flatMap_words (chunks : List (List Char)) (last : List Char)
    (hsep : ∀ c ∈ chunks, ∃ x ∈ c.getLast?, isSep x) :
    (chunks ++ [last]).flatMap words = words (chunks.flatten ++ last) := by
  induction chunks with
  | nil => simp
  | cons c cs ih =>
    obtain ⟨x, hx, hxsep⟩ := hsep c (by simp)
    obtain ⟨c', rfl⟩ : ∃ c', c = c' ++ [x] := ⟨c.dropLast, (List.dropLast_append_getLast? x hx).symm⟩
    have hcs := ih (fun c h => hsep c (by simp [h]))
    rw [List.cons_append, List.flatMap_cons, hcs, List.flatten_cons, List.append_assoc,
      List.append_assoc, List.singleton_append, words_append_sep hxsep,
      words_append_sep hxsep, words_nil, List.append_nil]

/-- `xargs` run on a stream read in chunks without NUL, each shorter than `line` and each but the
last ending at a separator, execs its arguments followed by the words of the whole stream. -/
theorem main_ok (argv : List (List Char)) (chunks : List (List Char)) (last : List Char)
    (hargv : 2 ≤ argv.length)
    (hc : ∀ c ∈ chunks ++ [last], c.length < maxLineLength ∧ '\x00' ∉ c)
    (hsep : ∀ c ∈ chunks, ∃ x ∈ c.getLast?, isSep x)
    (hn : argv.length - 1 + (words (chunks.flatten ++ last)).length ≤ maxArg - 1) :
    main argv ((chunks ++ [last]).map some) =
      .exec (argv.drop 1 ++ words (chunks.flatten ++ last)) := by
  rw [main, if_neg (by omega), ← flatMap_words chunks last hsep]
  apply loop_ok _ _ hc
  rw [flatMap_words chunks last hsep, List.length_drop]
  exact hn

/-- A word that two reads cut in two, `a` ending one chunk and `b` starting the next, is passed
to the command as two arguments: the words of the stream are `[a ++ b]`, those `xargs` passes are
`a` and `b`. -/
theorem loop_split (args : List (List Char)) {a b : List Char} (ha : a ≠ []) (hb : b ≠ [])
    (hwa : ∀ c ∈ a, inWord c) (hwb : ∀ c ∈ b, inWord c)
    (hla : a.length < maxLineLength) (hlb : b.length < maxLineLength)
    (hn : args.length + 2 ≤ maxArg - 1) :
    words (a ++ b) = [a ++ b] ∧ loop args [some a, some b] = .exec (args ++ [a, b]) := by
  have hword : ∀ w : List Char, (∀ c ∈ w, inWord c) → ∀ c ∈ w, isSep c = false :=
    fun w hw c hc => by
      have := hw c hc
      simp only [inWord, Bool.and_eq_true, Bool.not_eq_true'] at this
      exact this.1
  have hnul : ∀ w : List Char, (∀ c ∈ w, inWord c) → '\x00' ∉ w :=
    fun w hw h => absurd (hw _ h) (by decide)
  have hwords : ∀ w : List Char, w ≠ [] → (∀ c ∈ w, inWord c) → words w = [w] :=
    fun w hne hw => by rw [words_of_forall (hword w hw), if_neg hne]
  refine ⟨hwords _ (by simp [ha]) (fun c hc => (List.mem_append.mp hc).elim (hwa c) (hwb c)), ?_⟩
  have hrun := loop_ok args [a, b] (by simp [hla, hlb, hnul a hwa, hnul b hwb])
    (by simp [hwords a ha hwa, hwords b hb hwb]; omega)
  simpa [hwords a ha hwa, hwords b hb hwb] using hrun

/-- A read of a full `sizeof(line)` bytes makes the store `line[n] = '\0'` fall outside `line`,
whatever came before. -/
theorem loop_full_chunk (args : List (List Char)) {chunk : List Char}
    (hc : chunk.length = maxLineLength) (reads : List (Option (List Char))) :
    loop args (some chunk :: reads) = .overrun := by
  rw [loop, if_pos hc.ge]

/-- `xargs echo` fed `hello` as the two reads `hel` and `lo\n` runs `echo hel lo`, and fed a read
of a full 512 bytes stores its `'\0'` outside `line`. -/
theorem xargs_split_overrun :
    words (['h', 'e', 'l'] ++ ['l', 'o']) = [['h', 'e', 'l', 'l', 'o']] ∧
      main [['x', 'a', 'r', 'g', 's'], ['e', 'c', 'h', 'o']]
          [some ['h', 'e', 'l'], some ['l', 'o']] =
        .exec [['e', 'c', 'h', 'o'], ['h', 'e', 'l'], ['l', 'o']] ∧
      main [['x', 'a', 'r', 'g', 's'], ['e', 'c', 'h', 'o']] [some (List.replicate 512 'a')] =
        .overrun := by
  have hsplit := loop_split [['e', 'c', 'h', 'o']] (a := ['h', 'e', 'l']) (b := ['l', 'o'])
    (by simp) (by simp) (by simp [inWord, isSep]) (by simp [inWord, isSep]) (by decide) (by decide)
    (by decide)
  refine ⟨hsplit.1, ?_, ?_⟩
  · rw [main, if_neg (by simp)]
    exact hsplit.2
  · rw [main, if_neg (by simp)]
    exact loop_full_chunk _ (by simp only [List.length_replicate]; rfl) []

end Xv6.Xargs
