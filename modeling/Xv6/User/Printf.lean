import Mathlib

/-!
# `printf` (`user/printf.c`)

`vprintf(fd, fmt, ap)` copies `fmt` to `fd` and replaces each conversion by an argument taken
from `ap`: `%d` through `printint` in base 10 with a sign, `%l` and `%x` through `printint`
without one, `%p` through `printptr`, `%s` and `%c` directly.  The model returns the characters
written, and the arguments are a list of the values the caller passed, each with its C type.

`printint` takes its number as an `int` and works on it as a `uint`: the model keeps these types
(`Int32`, `UInt32`), and the `uint64` argument of `%l` is converted to the `int` parameter, as C
converts it, by keeping its low 32 bits.

* `Piece`, `Piece.render`: a format string with its arguments, as a list of pieces, and what each
  piece should print;
* `printint_eq`, `printptr_eq`: the digits of `printint` and `printptr`, by induction on their
  loops;
* `vprintf_pieces`: `vprintf` prints each piece as it should, when every `%l` argument is below
  `2^32`; `vprintf_l_truncates`: a larger one loses its high bits.
-/

namespace Xv6.Printf

/-- `digits`. -/
def digits : List Char :=
  ['0', '1', '2', '3', '4', '5', '6', '7', '8', '9', 'A', 'B', 'C', 'D', 'E', 'F']

/-- `digits[d]`. -/
def digit (d : ℕ) : Char := digits.getD d '0'

/-- `sizeof(buf)` in `printint`. -/
def printintBufSize : ℕ := 16

/-- The `do`-`while` loop of `printint` over `x`, filling at most `k` entries of `buf`: the
digits of `x` in base `base`, least significant first. -/
def printintLoop (base : ℕ) : ℕ → ℕ → List Char
  | 0, _ => []
  | k + 1, x => digit (x % base) :: if x / base ≠ 0 then printintLoop base k (x / base) else []

/-- `printint(fd, xx, base, sgn)`: the characters it writes, `buf` read backwards. -/
def printint (xx : Int32) (base : ℕ) (sgn : Bool) : List Char :=
  let neg := sgn && decide (xx < 0)
  let x : UInt32 := if neg then (-xx).toUInt32 else xx.toUInt32
  (printintLoop base printintBufSize x.toNat ++ if neg then ['-'] else []).reverse

/-- The loop of `printptr`: the top four bits of `x` as a digit, `k` times, shifting `x` left by
four bits each turn. -/
def printptrLoop : ℕ → UInt64 → List Char
  | 0, _ => []
  | k + 1, x => digit (x >>> 60).toNat :: printptrLoop k (x <<< 4)

/-- `printptr(fd, x)`: `0x` and the `sizeof(uint64) * 2` hexadecimal digits of `x`. -/
def printptr (x : UInt64) : List Char := '0' :: 'x' :: printptrLoop 16 x

/-- An argument passed to `vprintf`, with its C type. -/
inductive Arg
  | int (v : Int32)
  | uint64 (v : UInt64)
  /-- A `char *`: the characters before its NUL, or `none` for a null pointer. -/
  | str (s : Option (List Char))

/-- `va_arg(ap, int)`, and `va_arg(ap, uint)` read as the same bits. -/
def Arg.toInt32 : Arg → Int32
  | .int v => v
  | _ => 0

/-- `va_arg(ap, uint64)`. -/
def Arg.toUInt64 : Arg → UInt64
  | .uint64 v => v
  | _ => 0

/-- `va_arg(ap, char*)`. -/
def Arg.toStr : Arg → Option (List Char)
  | .str s => s
  | _ => none

/-- The loop of `vprintf` over the rest of `fmt`, in state `0` (`pct = false`) or `'%'`, with
the arguments left in `ap`: the characters written. -/
def vprintfLoop : Bool → List Char → List Arg → List Char
  | _, [], _ => []
  | false, c :: fmt, ap => if c = '%' then vprintfLoop true fmt ap else c :: vprintfLoop false fmt ap
  | true, c :: fmt, ap =>
    let arg := ap.headD (.int 0)
    if c = 'd' then printint arg.toInt32 10 true ++ vprintfLoop false fmt ap.tail
    else if c = 'l' then printint arg.toUInt64.toUInt32.toInt32 10 false ++ vprintfLoop false fmt ap.tail
    else if c = 'x' then printint arg.toInt32 16 false ++ vprintfLoop false fmt ap.tail
    else if c = 'p' then printptr arg.toUInt64 ++ vprintfLoop false fmt ap.tail
    else if c = 's' then arg.toStr.getD ['(', 'n', 'u', 'l', 'l', ')'] ++ vprintfLoop false fmt ap.tail
    else if c = 'c' then Char.ofNat arg.toInt32.toUInt32.toUInt8.toNat :: vprintfLoop false fmt ap.tail
    else if c = '%' then '%' :: vprintfLoop false fmt ap
    else '%' :: c :: vprintfLoop false fmt ap

/-- `vprintf(fd, fmt, ap)`: the characters written to `fd`. -/
def vprintf (fmt : List Char) (ap : List Arg) : List Char := vprintfLoop false fmt ap

/-! ### What a format string means -/

/-- A piece of a format string, with the argument it takes. -/
inductive Piece
  | text (c : Char)
  | dec (v : Int32)
  | udec (v : UInt64)
  | hex (v : Int32)
  | ptr (v : UInt64)
  | str (s : Option (List Char))
  | char (c : Char)
  | percent
  /-- `%` followed by a character that is no conversion. -/
  | other (c : Char)

/-- The characters of the format string a piece stands for. -/
def Piece.fmt : Piece → List Char
  | .text c => [c]
  | .dec _ => ['%', 'd']
  | .udec _ => ['%', 'l']
  | .hex _ => ['%', 'x']
  | .ptr _ => ['%', 'p']
  | .str _ => ['%', 's']
  | .char _ => ['%', 'c']
  | .percent => ['%', '%']
  | .other c => ['%', c]

/-- The arguments a piece takes: a `char` for `%c` is promoted to an `int`. -/
def Piece.args : Piece → List Arg
  | .dec v => [.int v]
  | .udec v => [.uint64 v]
  | .hex v => [.int v]
  | .ptr v => [.uint64 v]
  | .str s => [.str s]
  | .char c => [.int (Int32.ofNat c.toNat)]
  | _ => []

/-- A piece a format string can hold: text is not `%`, a `%c` character is a byte, and an
unknown conversion is none of `dlxpsc%`. -/
def Piece.Ok : Piece → Prop
  | .text c => c ≠ '%'
  | .char c => c.toNat < 256
  | .other c => c ∉ ['d', 'l', 'x', 'p', 's', 'c', '%']
  | _ => True

/-- The numeral of `n` in base `b`: its digits, most significant first, and `0` for zero. -/
def numeral (b n : ℕ) : List Char := if n = 0 then ['0'] else ((Nat.digits b n).map digit).reverse

/-- What a piece should print: signed decimal for `%d`, the decimal of the whole `uint64` for
`%l`, the hexadecimal of the `int` read as unsigned for `%x`, `0x` and sixteen hexadecimal digits
for `%p`. -/
def Piece.render : Piece → List Char
  | .text c => [c]
  | .dec v => (if v.toInt < 0 then ['-'] else []) ++ numeral 10 v.toInt.natAbs
  | .udec v => numeral 10 v.toNat
  | .hex v => numeral 16 (v.toInt % 2 ^ 32).toNat
  | .ptr v => '0' :: 'x' :: (List.range 16).map fun i => digit (v.toNat / 16 ^ (15 - i) % 16)
  | .str s => s.getD ['(', 'n', 'u', 'l', 'l', ')']
  | .char c => [c]
  | .percent => ['%']
  | .other c => ['%', c]

/-! ### `printint` and `printptr` -/

/-- The loop of `printint` writes the digits of `x`, least significant first, when `buf` has room
for them; for `0` the `do`-`while` still writes one digit. -/
theorem printintLoop_eq {b : ℕ} (hb : 2 ≤ b) : ∀ (k x : ℕ), 0 < k → (Nat.digits b x).length ≤ k →
    printintLoop b k x = if x = 0 then [digit 0] else (Nat.digits b x).map digit
  | 0, _, hk, _ => absurd hk (Nat.lt_irrefl 0)
  | k + 1, x, _, hlen => by
    rw [printintLoop]
    by_cases hx : x = 0
    · subst hx
      simp
    · have hd := Nat.digits_def' (by omega : 1 < b) (Nat.pos_of_ne_zero hx)
      rw [if_neg hx, hd, List.map_cons]
      congr 1
      by_cases hq : x / b = 0
      · rw [if_neg (not_not.2 hq), hq, Nat.digits_zero, List.map_nil]
      · have hne : Nat.digits b (x / b) ≠ [] := Nat.digits_ne_nil_iff_ne_zero.2 hq
        have hlen' : (Nat.digits b (x / b)).length ≤ k := by
          rw [hd, List.length_cons] at hlen
          omega
        have hk : 0 < k := lt_of_lt_of_le (List.length_pos_of_ne_nil hne) hlen'
        rw [if_pos hq, printintLoop_eq hb k (x / b) hk hlen', if_neg hq]

/-- `buf` read backwards: the numeral of a `uint` in a base of at least four, whose at most
sixteen digits fit `buf`. -/
theorem printintLoop_reverse {b x : ℕ} (hb : 4 ≤ b) (hx : x < 2 ^ 32) :
    (printintLoop b printintBufSize x).reverse = numeral b x := by
  have hlen : (Nat.digits b x).length ≤ printintBufSize := by
    rw [Nat.digits_length_le_iff (by omega)]
    calc x < 2 ^ 32 := hx
      _ = 4 ^ 16 := by norm_num
      _ ≤ b ^ 16 := Nat.pow_le_pow_left hb 16
  rw [printintLoop_eq (by omega) printintBufSize x (by decide) hlen, numeral]
  split_ifs <;> simp [digit, digits]

/-- `printint` writes `-` for a negative number when `sgn` is set, then the numeral of the
number read as a `uint`, or of its negation. -/
theorem printint_eq (xx : Int32) {b : ℕ} (hb : 4 ≤ b) (sgn : Bool) :
    printint xx b sgn = (if sgn && decide (xx < 0) then ['-'] else []) ++
      numeral b (if sgn && decide (xx < 0) then (-xx).toUInt32 else xx.toUInt32).toNat := by
  unfold printint
  dsimp only
  rw [List.reverse_append, printintLoop_reverse hb (UInt32.toNat_lt _)]
  split_ifs <;> rfl

/-- An `int` read as a `uint`: its value modulo `2^32`. -/
theorem toNat_toUInt32 (x : Int32) : x.toUInt32.toNat = (x.toInt % 2 ^ 32).toNat := by
  rw [← UInt32.toNat_toBitVec, Int32.toBitVec_toUInt32, ← Int32.toInt_toBitVec]
  have h := BitVec.toNat_ofInt (n := 32) x.toBitVec.toInt
  rw [BitVec.ofInt_toInt] at h
  rw [h]
  rfl

/-- `%d`: the sign, then the magnitude, `INT_MIN` included, whose negation wraps to itself and
reads as `2^31`. -/
theorem printint_dec (v : Int32) :
    printint v 10 true = (if v.toInt < 0 then ['-'] else []) ++ numeral 10 v.toInt.natAbs := by
  have hlo := Int32.le_toInt v
  have hhi := Int32.toInt_lt v
  have hlt : v < 0 ↔ v.toInt < 0 := Int32.lt_iff_toInt_lt
  rw [printint_eq v (by decide) true, Bool.true_and]
  by_cases hv : v.toInt < 0
  · rw [if_pos (decide_eq_true (hlt.2 hv)), if_pos (decide_eq_true (hlt.2 hv)), if_pos hv,
      toNat_toUInt32, Int32.toInt_neg, Int.bmod_def]
    congr 2
    split <;> omega
  · have hd : ¬ decide (v < 0) = true := fun h => hv (hlt.1 (of_decide_eq_true h))
    rw [if_neg hd, if_neg hd, if_neg hv, toNat_toUInt32]
    congr 2
    omega

/-- `%x`, and `%l` below `2^32`: the numeral of the `int` read as a `uint`. -/
theorem printint_unsigned (v : Int32) {b : ℕ} (hb : 4 ≤ b) :
    printint v b false = numeral b (v.toInt % 2 ^ 32).toNat := by
  rw [printint_eq v hb false, Bool.false_and, if_neg Bool.false_ne_true,
    if_neg Bool.false_ne_true, List.nil_append, toNat_toUInt32]

/-- The `uint64` argument of `%l` passed to `printint`'s `int`: its low 32 bits. -/
theorem printint_uint64 (v : UInt64) :
    printint v.toUInt32.toInt32 10 false = numeral 10 (v.toNat % 2 ^ 32) := by
  rw [printint_eq _ (by decide) false, Bool.false_and, if_neg Bool.false_ne_true,
    if_neg Bool.false_ne_true, List.nil_append, UInt32.toUInt32_toInt32, UInt64.toNat_toUInt32]

/-- The loop of `printptr`: the `i`-th digit is the top four bits of `x` shifted left by `4 i`. -/
theorem printptrLoop_eq : ∀ (k : ℕ) (x : UInt64),
    printptrLoop k x = (List.range k).map fun i => digit (x.toNat * 16 ^ i % 2 ^ 64 / 2 ^ 60)
  | 0, _ => rfl
  | k + 1, x => by
    have hshr : (x >>> 60).toNat = x.toNat / 2 ^ 60 := by
      rw [UInt64.toNat_shiftRight, Nat.shiftRight_eq_div_pow]
      rfl
    have hshl : (x <<< 4).toNat = x.toNat * 16 % 2 ^ 64 := by
      rw [UInt64.toNat_shiftLeft, Nat.shiftLeft_eq]
      rfl
    rw [printptrLoop, printptrLoop_eq k, List.range_succ_eq_map, List.map_cons, List.map_map,
      hshr, pow_zero, Nat.mul_one, Nat.mod_eq_of_lt (UInt64.toNat_lt x)]
    congr 1
    refine List.map_congr_left fun i _ => ?_
    show digit ((x <<< 4).toNat * 16 ^ i % 2 ^ 64 / 2 ^ 60) =
      digit (x.toNat * 16 ^ (i + 1) % 2 ^ 64 / 2 ^ 60)
    rw [hshl, Nat.mod_mul_mod, pow_succ' 16 i, Nat.mul_assoc]

/-- The top four bits of `n * 16^i` are the `i`-th of the sixteen hexadecimal digits of `n`. -/
theorem hex_digit (n : ℕ) {i : ℕ} (hi : i < 16) :
    n * 16 ^ i % 2 ^ 64 / 2 ^ 60 = n / 16 ^ (15 - i) % 16 := by
  have h64 : (2 : ℕ) ^ 64 = 16 ^ (16 - i) * 16 ^ i := by
    rw [← pow_add, show 16 - i + i = 16 by omega]
    norm_num
  have h60 : (2 : ℕ) ^ 60 = 16 ^ (15 - i) * 16 ^ i := by
    rw [← pow_add, show 15 - i + i = 15 by omega]
    norm_num
  rw [h64, Nat.mul_mod_mul_right, h60, Nat.mul_div_mul_right _ _ (by positivity),
    show 16 - i = (15 - i) + 1 by omega, pow_succ, Nat.mod_mul_right_div_self]

theorem printptr_eq (v : UInt64) :
    printptr v = '0' :: 'x' :: (List.range 16).map fun i => digit (v.toNat / 16 ^ (15 - i) % 16) := by
  rw [printptr, printptrLoop_eq]
  congr 2
  exact List.map_congr_left fun i hi => by rw [hex_digit _ (List.mem_range.1 hi)]

/-! ### `vprintf` -/

/-- A byte passed to `%c` as an `int` comes back as the same character. -/
theorem byte_of_char {c : Char} (hc : c.toNat < 256) :
    Char.ofNat (Int32.ofNat c.toNat).toUInt32.toUInt8.toNat = c := by
  have h32 : c.toNat < 2 ^ 32 := Nat.lt_trans hc (by norm_num)
  have hb : (Int32.ofNat c.toNat).toUInt32.toUInt8.toNat = c.toNat := by
    rw [UInt32.toNat_toUInt8, Int32.toUInt32_ofNat', UInt32.toNat_ofNat', Nat.mod_eq_of_lt h32,
      Nat.mod_eq_of_lt hc]
  rw [hb, Char.ofNat_toNat]

/-- `vprintf` prints one piece as it should, and goes on with the rest of the format string and
of the arguments, when the piece's `%l` argument is below `2^32`. -/
theorem vprintfLoop_piece {p : Piece} (hp : p.Ok) (hl : ∀ v, p = .udec v → v.toNat < 2 ^ 32)
    (rest : List Char) (ap : List Arg) :
    vprintfLoop false (p.fmt ++ rest) (p.args ++ ap) = p.render ++ vprintfLoop false rest ap := by
  cases p with
  | text c =>
    have hc : c ≠ '%' := hp
    simp [Piece.fmt, Piece.args, Piece.render, vprintfLoop, hc]
  | dec v => simp [Piece.fmt, Piece.args, Piece.render, vprintfLoop, Arg.toInt32, printint_dec]
  | udec v =>
    have hv : v.toNat < 4294967296 := hl v rfl
    simp [Piece.fmt, Piece.args, Piece.render, vprintfLoop, Arg.toUInt64, printint_uint64,
      Nat.mod_eq_of_lt hv]
  | hex v =>
    simp [Piece.fmt, Piece.args, Piece.render, vprintfLoop, Arg.toInt32,
      printint_unsigned v (show 4 ≤ 16 by decide)]
  | ptr v => simp [Piece.fmt, Piece.args, Piece.render, vprintfLoop, Arg.toUInt64, printptr_eq]
  | str s => simp [Piece.fmt, Piece.args, Piece.render, vprintfLoop, Arg.toStr]
  | char c =>
    have hc : c.toNat < 256 := hp
    simp only [Piece.fmt, Piece.args, Piece.render, List.cons_append, List.nil_append, vprintfLoop,
      List.headD_cons, List.tail_cons, Arg.toInt32, byte_of_char hc]
    simp
  | percent => simp [Piece.fmt, Piece.args, Piece.render, vprintfLoop]
  | other c =>
    have hc : c ∉ ['d', 'l', 'x', 'p', 's', 'c', '%'] := hp
    simp only [List.mem_cons, List.not_mem_nil, not_or] at hc
    obtain ⟨hd, hl, hx, hp, hs, hc, hpc, -⟩ := hc
    simp [Piece.fmt, Piece.args, Piece.render, vprintfLoop, hd, hl, hx, hp, hs, hc, hpc]

/-- For every format string, written as pieces with their arguments, and every `%l` argument
below `2^32`, `vprintf` prints each piece as it should, in order; a `%` that ends the format
string prints nothing. -/
theorem vprintf_pieces : ∀ (ps : List Piece), (∀ p ∈ ps, p.Ok) →
    (∀ v, Piece.udec v ∈ ps → v.toNat < 2 ^ 32) → ∀ tail : List Char, tail = [] ∨ tail = ['%'] →
      vprintf (ps.flatMap Piece.fmt ++ tail) (ps.flatMap Piece.args) = ps.flatMap Piece.render
  | [], _, _, tail, htail => by
    rcases htail with rfl | rfl <;> rfl
  | p :: ps, hok, hl, tail, htail => by
    have hrest := vprintf_pieces ps (fun q hq => hok q (List.mem_cons_of_mem _ hq))
      (fun v hv => hl v (List.mem_cons_of_mem _ hv)) tail htail
    unfold vprintf at hrest ⊢
    rw [List.flatMap_cons, List.flatMap_cons, List.flatMap_cons, List.append_assoc,
      vprintfLoop_piece (hok p List.mem_cons_self) (fun v hv => hl v (hv ▸ List.mem_cons_self)),
      hrest]

/-- `printf("%l", 1 << 32)` prints `0`: `printint` takes its number as an `int`, and the
`uint64` argument keeps only its low 32 bits. -/
theorem vprintf_l_truncates :
    vprintf ['%', 'l'] [.uint64 (2 ^ 32)] = ['0'] ∧
      Piece.render (.udec (2 ^ 32)) = ['4', '2', '9', '4', '9', '6', '7', '2', '9', '6'] := by
  constructor
  · show printint (2 ^ 32 : UInt64).toUInt32.toInt32 10 false ++ [] = ['0']
    rw [printint_uint64]
    decide
  · rw [Piece.render, show (2 ^ 32 : UInt64).toNat = 4294967296 from rfl]
    simp [numeral, digit, digits]

end Xv6.Printf
