import Xv6.Param
import Mathlib.RingTheory.Int.Basic

/-!
# The prime sieve (`user/primes.c`)

`help(vals, num)` prints `vals[0]` as a prime, makes a pipe and forks.  The parent writes all of
`vals` into the pipe, closes it and waits; the child closes the write end, reads the first value
as its sieve number and the rest as candidates, keeps those the sieve number leaves a remainder on,
and calls `help` on them.  Each level of the recursion is one process, the child of the level
before.

The model follows the chain down its processes.  What a child reads is what its parent wrote: the
parent writes `4 * num ≤ 140` bytes, less than `PIPESIZE`, four bytes a `write`, and closes its
end before it waits, so every `read(p[0], &val, 4)` of the child returns one whole value and the
reads end at end-of-file (`Pipe/Records.lean` proves the first for every record size that divides
`PIPESIZE`).  What the model keeps of a process is its descriptor table: `pipe` takes the two
lowest free descriptors as `fdalloc` does (`pipealloc` is taken to succeed), `fork` copies the
table, and the child closes `p[1]`.  No process closes the read end it inherits, so each level holds
one descriptor more than the level before.  The `pipe` of the level that finds a single free
descriptor returns `-1`, and `help` goes on with `p` uninitialized; the model stops the chain there
with the flag `false`.

* `sieve_mem`: on strictly increasing values, `sieve` keeps exactly the values that no smaller kept
  value divides; `sieve_range`: on `2, 3, …, n + 1` it keeps the primes;
* `help_upTo`: from a table with the descriptors below `n` open, the chain prints the sieve and
  all its pipes succeed when the sieve has fewer than `NOFILE - n` values; otherwise it stops at the
  failed pipe after printing the first `NOFILE - n`;
* `main_ok`: `primes` itself, on `2, …, 35`, prints the primes up to 35 with every pipe made.
-/

namespace Xv6.Primes

/-! ### The chain of processes -/

/-- A process's descriptor table: `p->ofile[fd] != 0`. -/
abbrev Fds := Fin nofile → Bool

/-- `fdalloc`: the lowest free descriptor. -/
def fdalloc (o : Fds) : Option (Fin nofile) := (List.finRange nofile).find? fun fd => !o fd

/-- The descriptors of `sys_pipe`: `fdalloc` for the read end, then for the write end; when either
fails the call returns `-1` (`none`) and frees what it took. -/
def pipe (o : Fds) : Option (Fin nofile × Fin nofile × Fds) :=
  match fdalloc o with
  | none => none
  | some fd0 =>
    match fdalloc (Function.update o fd0 true) with
    | none => none
    | some fd1 => some (fd0, fd1, Function.update (Function.update o fd0 true) fd1 true)

/-- `close(fd)`. -/
def close (o : Fds) (fd : Fin nofile) : Fds := Function.update o fd false

/-- The values the child of a level passes on: those with `val % sieveNum != 0`, where `%` is C's
truncating remainder. -/
def passVals (sieveNum : ℤ) (vals : List ℤ) : List ℤ := vals.filter fun v => v.tmod sieveNum ≠ 0

/-- `help(vals, num)` run by a process with table `o`, down the chain of its descendants: the
values of the `prime` lines the chain prints, in order, and whether every `pipe` of the chain
succeeded. -/
def help (o : Fds) : List ℤ → List ℤ × Bool
  | [] => ([], true)
  | v :: rest =>
    match pipe o with
    | none => ([v], false)
    | some (_, fd1, o') =>
      let r := help (close o' fd1) (passVals v rest)
      (v :: r.1, r.2)
termination_by vals => vals.length
decreasing_by exact Nat.lt_succ_of_le (List.length_filter_le _ _)

/-- The table `primes` starts with: the console on `0`, `1` and `2`. -/
def initFds : Fds := fun fd => fd.val < 3

/-- The values of `main`: `vals[i] = i + 2` for `i < num`. -/
def firstVals (num : ℕ) : List ℤ := (List.range num).map fun i : ℕ => (i : ℤ) + 2

/-- `main`: `help` on `2, 3, …, 35`. -/
def main : List ℤ × Bool := help initFds (firstVals 34)

/-! ### The sieve -/

/-- The values that `v` does not divide. -/
def sift (v : ℤ) (vals : List ℤ) : List ℤ := vals.filter fun x => ¬ v ∣ x

/-- The values a sieve prints: the first value, then the sieve of the values it does not divide. -/
def sieve : List ℤ → List ℤ
  | [] => []
  | v :: rest => v :: sieve (sift v rest)
termination_by vals => vals.length
decreasing_by exact Nat.lt_succ_of_le (List.length_filter_le _ _)

theorem passVals_eq_sift (v : ℤ) (vals : List ℤ) : passVals v vals = sift v vals := by
  simp only [passVals, sift, Int.dvd_iff_tmod_eq_zero]

theorem mem_sift {v x : ℤ} {vals : List ℤ} : x ∈ sift v vals ↔ x ∈ vals ∧ ¬ v ∣ x := by
  simp [sift]

theorem sieve_sublist : ∀ vals : List ℤ, List.Sublist (sieve vals) vals
  | [] => by simp [sieve]
  | v :: rest => by
    rw [sieve]
    exact ((sieve_sublist _).trans List.filter_sublist).cons_cons v
termination_by vals => vals.length
decreasing_by exact Nat.lt_succ_of_le (List.length_filter_le _ _)

/-- On strictly increasing values the sieve keeps exactly those that no smaller kept value
divides. -/
theorem sieve_mem : ∀ {vals : List ℤ}, vals.Pairwise (· < ·) → ∀ x : ℤ,
    x ∈ sieve vals ↔ x ∈ vals ∧ ∀ u ∈ sieve vals, u < x → ¬ u ∣ x
  | [], _, x => by simp [sieve]
  | v :: rest, hs, x => by
    have hv : ∀ y ∈ rest, v < y := (List.pairwise_cons.mp hs).1
    have hrest : (sift v rest).Pairwise (· < ·) := (List.pairwise_cons.mp hs).2.filter _
    have ih := sieve_mem hrest
    have hsub : ∀ y ∈ sieve (sift v rest), y ∈ rest ∧ ¬ v ∣ y :=
      fun y hy => mem_sift.mp ((sieve_sublist _).subset hy)
    rw [sieve]
    constructor
    · rintro (_ | ⟨_, hx⟩)
      -- the first value: nothing kept is smaller
      · refine ⟨List.mem_cons_self, fun u hu hlt => ?_⟩
        rcases List.mem_cons.mp hu with rfl | hu
        · exact absurd hlt (lt_irrefl _)
        · exact absurd (hv u (hsub u hu).1) (not_lt.mpr hlt.le)
      -- a later value: kept below by the recursion, and not divided by the first
      · obtain ⟨hxr, hdvd⟩ := (ih x).mp hx
        refine ⟨List.mem_cons_of_mem _ (mem_sift.mp hxr).1, fun u hu hlt => ?_⟩
        rcases List.mem_cons.mp hu with rfl | hu
        · exact (mem_sift.mp hxr).2
        · exact hdvd u hu hlt
    · rintro ⟨hx, hkeep⟩
      rcases List.mem_cons.mp hx with rfl | hx
      · exact List.mem_cons_self
      · have hnv : ¬ v ∣ x := hkeep v List.mem_cons_self (hv x hx)
        exact List.mem_cons_of_mem _ ((ih x).mpr ⟨mem_sift.mpr ⟨hx, hnv⟩,
          fun u hu hlt => hkeep u (List.mem_cons_of_mem _ hu) hlt⟩)
termination_by vals => vals.length
decreasing_by exact Nat.lt_succ_of_le (List.length_filter_le _ _)

/-- Values of which none divides a later one pass the sieve whole. -/
theorem sieve_eq_self : ∀ {vals : List ℤ}, vals.Pairwise (fun a b => ¬ a ∣ b) → sieve vals = vals
  | [], _ => by simp [sieve]
  | v :: rest, hs => by
    have hkeep : sift v rest = rest :=
      List.filter_eq_self.mpr fun x hx => by simpa using (List.pairwise_cons.mp hs).1 x hx
    rw [sieve, hkeep, sieve_eq_self (List.pairwise_cons.mp hs).2]
termination_by vals => vals.length

theorem firstVals_pairwise (num : ℕ) : (firstVals num).Pairwise (· < ·) := by
  rw [firstVals, List.pairwise_map]
  exact List.pairwise_lt_range.imp fun h => by omega

theorem mem_firstVals {num : ℕ} {x : ℤ} : x ∈ firstVals num ↔ 2 ≤ x ∧ x ≤ num + 1 := by
  simp only [firstVals, List.mem_map, List.mem_range]
  constructor
  · rintro ⟨i, hi, rfl⟩
    constructor <;> omega
  · rintro ⟨h2, hle⟩
    exact ⟨(x - 2).toNat, by omega, by omega⟩

/-- A prime below the top of the range is kept. -/
theorem prime_mem_sieve {num : ℕ} {x : ℤ} (h2 : 2 ≤ x) (hle : x ≤ num + 1) (hx : Prime x) :
    x ∈ sieve (firstVals num) := by
  rw [sieve_mem (firstVals_pairwise num)]
  refine ⟨mem_firstVals.mpr ⟨h2, hle⟩, fun u hu hlt hdvd => ?_⟩
  have hu2 : 2 ≤ u := (mem_firstVals.mp ((sieve_sublist _).subset hu)).1
  have hnat := Int.prime_iff_natAbs_prime.mp hx
  have hd : u.natAbs ∣ x.natAbs := Int.natAbs_dvd_natAbs.mpr hdvd
  rcases (Nat.dvd_prime hnat).mp hd with h | h <;> omega

/-- On `2, 3, …, num + 1` the sieve keeps the primes. -/
theorem sieve_range (num : ℕ) (x : ℤ) :
    x ∈ sieve (firstVals num) ↔ 2 ≤ x ∧ x ≤ num + 1 ∧ Prime x := by
  constructor
  · intro hx
    obtain ⟨h2, hle⟩ := mem_firstVals.mp ((sieve_sublist _).subset hx)
    refine ⟨h2, hle, Int.prime_iff_natAbs_prime.mpr (by_contra fun hnp => ?_)⟩
    -- a composite value has its least prime factor below it, and that factor is kept
    have hn2 : 2 ≤ x.natAbs := by omega
    set p := x.natAbs.minFac
    have hp : Nat.Prime p := Nat.minFac_prime (by omega)
    have hlt : p < x.natAbs := (Nat.not_prime_iff_minFac_lt hn2).mp hnp
    have hp2 := hp.two_le
    have hkept : (p : ℤ) ∈ sieve (firstVals num) :=
      prime_mem_sieve (by omega) (by omega) (Int.prime_iff_natAbs_prime.mpr (by simpa using hp))
    have hdvd : (p : ℤ) ∣ x := Int.natCast_dvd.mpr (Nat.minFac_dvd _)
    exact ((sieve_mem (firstVals_pairwise num) x).mp hx).2 p hkept (by omega) hdvd
  · rintro ⟨h2, hle, hx⟩
    exact prime_mem_sieve h2 hle hx

/-! ### The descriptors down the chain -/

/-- The table with the descriptors below `n` open. -/
def upTo (n : ℕ) : Fds := fun fd => fd.val < n

theorem fdalloc_upTo (n : ℕ) :
    fdalloc (upTo n) = if h : n < nofile then some ⟨n, h⟩ else none := by
  split
  · rename_i h
    rw [fdalloc, List.find?_eq_some_iff_getElem]
    refine ⟨by simp [upTo], n, by simpa using h, by ext; simp, fun j hj => by simp [upTo, hj]⟩
  · rename_i h
    rw [fdalloc, List.find?_eq_none]
    intro fd _
    simp only [upTo, Bool.not_eq_true', decide_eq_false_iff_not, not_not]
    omega

theorem update_upTo (n : ℕ) (h : n < nofile) : Function.update (upTo n) ⟨n, h⟩ true = upTo (n + 1) := by
  funext fd
  rcases eq_or_ne fd ⟨n, h⟩ with rfl | hne
  · simp [upTo]
  · have hv : fd.val ≠ n := fun hv => hne (Fin.ext hv)
    simp only [Function.update_of_ne hne, upTo, decide_eq_decide]
    omega

/-- `pipe` on the table with the descriptors below `n` open takes `n` and `n + 1`, when both exist. -/
theorem pipe_upTo (n : ℕ) :
    pipe (upTo n) =
      if h : n + 1 < nofile then some (⟨n, by omega⟩, ⟨n + 1, h⟩, upTo (n + 2)) else none := by
  rw [pipe, fdalloc_upTo]
  by_cases h : n + 1 < nofile
  · rw [dif_pos (by omega : n < nofile), dif_pos h]
    simp only [update_upTo n (by omega), fdalloc_upTo, dif_pos h, update_upTo (n + 1) h]
  · rw [dif_neg h]
    by_cases h' : n < nofile
    · simp only [dif_pos h', update_upTo n h', fdalloc_upTo, dif_neg h]
    · simp only [dif_neg h']

theorem close_upTo (n : ℕ) (h : n + 1 < nofile) : close (upTo (n + 2)) ⟨n + 1, h⟩ = upTo (n + 1) := by
  funext fd
  rcases eq_or_ne fd ⟨n + 1, h⟩ with rfl | hne
  · simp [close, upTo]
  · have hv : fd.val ≠ n + 1 := fun hv => hne (Fin.ext hv)
    simp only [close, Function.update_of_ne hne, upTo, decide_eq_decide]
    omega

/-- From a process with the descriptors below `n` open, the chain prints the sieve of its values
with every pipe made when the sieve has fewer than `NOFILE - n` values; otherwise the pipe of the
level that prints the `(NOFILE - n)`-th value fails. -/
theorem help_upTo : ∀ (vals : List ℤ) (n : ℕ), n < nofile →
    help (upTo n) vals =
      if (sieve vals).length + n < nofile then (sieve vals, true)
      else ((sieve vals).take (nofile - n), false)
  | [], n, hn => by simp [help, sieve, hn]
  | v :: rest, n, hn => by
    rw [help, sieve, pipe_upTo, passVals_eq_sift]
    by_cases h : n + 1 < nofile
    -- the level makes its pipe: its child holds one descriptor more
    · have ih := help_upTo (sift v rest) (n + 1) h
      simp only [dif_pos h, close_upTo n h, List.length_cons]
      by_cases hfit : (sieve (sift v rest)).length + (n + 1) < nofile
      · rw [ih, if_pos hfit, if_pos (by omega)]
      · rw [ih, if_neg hfit, if_neg (by omega), show nofile - n = nofile - (n + 1) + 1 by omega,
          List.take_succ_cons]
    -- the level finds one free descriptor: its pipe fails after it has printed its value
    · have hn' : nofile - n = 1 := by omega
      simp only [dif_neg h, List.length_cons, hn']
      rw [if_neg (by omega)]
      simp
termination_by vals => vals.length
decreasing_by exact Nat.lt_succ_of_le (List.length_filter_le _ _)

/-- `primes` as `main` runs it prints the primes up to 35, and every pipe of its chain succeeds. -/
theorem main_ok : main.2 = true ∧ ∀ x, x ∈ main.1 ↔ 2 ≤ x ∧ x ≤ 35 ∧ Prime x := by
  -- at most eleven values pass the sieve: they are distinct primes up to 35
  have hprimes : ∀ x ∈ sieve (firstVals 34), x ∈ ((List.range 36).filter Nat.Prime).map
      fun p : ℕ => (p : ℤ) := fun x hx => by
    obtain ⟨h2, hle, hp⟩ := (sieve_range 34 x).mp hx
    refine List.mem_map.mpr ⟨x.natAbs, ?_, by omega⟩
    simp only [List.mem_filter, List.mem_range, decide_eq_true_eq]
    exact ⟨by omega, Int.prime_iff_natAbs_prime.mp hp⟩
  have hnodup : (sieve (firstVals 34)).Nodup :=
    ((firstVals_pairwise 34).imp ne_of_lt).sublist (sieve_sublist _)
  have hlen := (hnodup.subperm hprimes).length_le
  have hcount : (((List.range 36).filter Nat.Prime).map fun p : ℕ => (p : ℤ)).length = 11 := by
    decide
  have hmain := help_upTo (firstVals 34) 3 (by decide)
  rw [if_pos (by simp only [nofile]; omega)] at hmain
  rw [main, show initFds = upTo 3 from rfl, hmain]
  exact ⟨rfl, sieve_range 34⟩

/-- Thirteen increasing values no one of which divides another, the first thirteen primes: the
chain prints all thirteen, and the pipe of the thirteenth process, which holds fifteen of the
sixteen descriptors, fails. -/
theorem help_thirteen_pipe_fails :
    [2, 3, 5, 7, 11, 13, 17, 19, 23, 29, 31, 37, 41].Pairwise (fun a b : ℤ => a < b) ∧
      help initFds [2, 3, 5, 7, 11, 13, 17, 19, 23, 29, 31, 37, 41] =
        ([2, 3, 5, 7, 11, 13, 17, 19, 23, 29, 31, 37, 41], false) := by
  refine ⟨by decide, ?_⟩
  have hself : sieve [2, 3, 5, 7, 11, 13, 17, 19, 23, 29, 31, 37, 41] =
      [2, 3, 5, 7, 11, 13, 17, 19, 23, 29, 31, 37, 41] := sieve_eq_self (by decide)
  rw [show initFds = upTo 3 from rfl, help_upTo _ 3 (by decide), hself]
  decide

end Xv6.Primes
