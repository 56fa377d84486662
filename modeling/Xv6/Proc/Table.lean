import Xv6.Param
import Xv6.Lib.Run

/-!
# The process table of `kernel/proc.c`

`proc[NPROC]` with the fields the table code reads and writes, `nextpid` and `initproc`, and the
operations on them: `allocpid`, `allocproc`, `freeproc`, `kill`, `userinit`, `fork`, `exit`
(with `reparent`) and `wait`.  What `kalloc`, `proc_pagetable` and `uvmcopy` return, and
whether `wait`'s `copyout` succeeds, are arguments: this file models the table, not memory.

The system `step` lets any running process fork, exit, wait or kill, and the scheduler and
`sleep`/`wakeup` move processes between RUNNABLE, RUNNING and SLEEPING.

* `unused_zeroed`: in every reachable table an UNUSED slot has pid 0, no trapframe and no page
  table.
* `unused_not_killed`: when no process calls `kill(0)`, an UNUSED slot also has `killed = 0`.
* `kill_zero_marks_unused`: `kill(0)` matches the first UNUSED slot, since `kill` compares
  pids without looking at the state, marks it killed and returns 0; the next `fork` hands that
  slot out with `killed = 1`;
* `family_of_reachable`: every process in use but `initproc` has a parent, in use and not a
  zombie, since `exit` hands its children to `initproc` before it becomes a zombie;
* `zombie_step`: a zombie leaves that state only through a `wait` of its parent that copies its
  status out; `wait_eq_neg_one`, `wait_eq_none`: when `wait` returns `-1` and when it sleeps;
* `wait_killed_reaps`: a killed caller with a zombie child reaps it and returns its pid.
-/

namespace Xv6.ProcTable

/-- `enum procstate`. -/
inductive Procstate
  | unused
  | used
  | sleeping
  | runnable
  | running
  | zombie
  deriving DecidableEq, Repr

/-- The fields of `struct proc` the table code uses.  Pointers are addresses, `0` for null;
`parent` is the index of the parent's slot. -/
structure Proc where
  state : Procstate
  killed : Int32
  xstate : Int32
  pid : Int32
  parent : Option (Fin nproc)
  sz : ℕ
  pagetable : ℕ
  trapframe : ℕ
  deriving DecidableEq, Repr

/-- `proc[NPROC]`, `nextpid` and `initproc`. -/
structure Ptable where
  proc : Fin nproc → Proc
  nextpid : Int32
  initproc : Option (Fin nproc)

/-- Replace slot `i`. -/
def Ptable.set (t : Ptable) (i : Fin nproc) (p : Proc) : Ptable :=
  { t with proc := Function.update t.proc i p }

@[simp] theorem Ptable.set_proc_self (t : Ptable) (i : Fin nproc) (p : Proc) :
    (t.set i p).proc i = p := by
  simp [Ptable.set]

@[simp] theorem Ptable.set_proc_ne (t : Ptable) {i j : Fin nproc} (p : Proc) (h : j ≠ i) :
    (t.set i p).proc j = t.proc j := by
  simp [Ptable.set, h]

@[simp] theorem Ptable.set_initproc (t : Ptable) (i : Fin nproc) (p : Proc) :
    (t.set i p).initproc = t.initproc := rfl

/-- The first slot, in table order, whose process satisfies `P`: the
`for(p = proc; p < &proc[NPROC]; p++)` scans. -/
def Ptable.first (t : Ptable) (P : Proc → Bool) : Option (Fin nproc) :=
  (List.finRange nproc).find? fun i => P (t.proc i)

theorem Ptable.first_spec {t : Ptable} {P : Proc → Bool} {i : Fin nproc}
    (h : t.first P = some i) : P (t.proc i) = true := by
  unfold Ptable.first at h
  have := List.find?_some h
  exact this

/-! ### `proc.c` -/

/-- A zeroed `struct proc`, as `proc[]` starts; `UNUSED` is `0` as well. -/
def Proc.zero : Proc := ⟨.unused, 0, 0, 0, none, 0, 0, 0⟩

/-- The table after `procinit`: every slot UNUSED, `nextpid = 1`, no `initproc`. -/
def procinit : Ptable := ⟨fun _ => Proc.zero, 1, none⟩

/-- `allocpid`: hand out `nextpid` and increment it (a C `int`). -/
def allocpid (t : Ptable) : Int32 × Ptable := (t.nextpid, { t with nextpid := t.nextpid + 1 })

/-- `freeproc`. -/
def freeproc (p : Proc) : Proc :=
  { p with
    trapframe := 0
    pagetable := 0
    sz := 0
    pid := 0
    parent := none
    killed := 0
    xstate := 0
    state := .unused }

/-- `allocproc`, with `tf` the address `kalloc` returns for the trapframe and `pt` the page
table `proc_pagetable` returns (`0` for failure).  The slot's other fields, `killed` among
them, are left as they are. -/
def allocproc (t : Ptable) (tf pt : ℕ) : Ptable × Option (Fin nproc) :=
  match t.first (fun p => p.state == .unused) with
  | none => (t, none)
  | some i =>
    let t' := (allocpid t).2
    let p := { t.proc i with pid := (allocpid t).1, state := .used, trapframe := tf }
    if tf = 0 then (t'.set i (freeproc p), none)
    else if pt = 0 then (t'.set i (freeproc { p with pagetable := pt }), none)
    else (t'.set i { p with pagetable := pt }, some i)

/-- `kill(pid)`: the first slot whose pid is `pid`, whatever its state, is marked killed and
woken if sleeping. -/
def kill (t : Ptable) (pid : Int32) : Ptable × Int32 :=
  match t.first (fun p => p.pid == pid) with
  | none => (t, -1)
  | some i =>
    let p := t.proc i
    (t.set i { p with killed := 1, state := if p.state = .sleeping then .runnable else p.state },
      0)

/-- `userinit`: the first process, RUNNABLE with one page; `none` where `allocproc` fails,
which `userinit` does not check for. -/
def userinit (t : Ptable) (tf pt : ℕ) : Option Ptable :=
  match allocproc t tf pt with
  | (_, none) => none
  | (t, some i) =>
    some { t.set i { t.proc i with sz := pgSize, state := .runnable } with initproc := some i }

/-- `fork` by the process in slot `p`; `copyOk` is whether `uvmcopy` succeeds. -/
def fork (t : Ptable) (p : Fin nproc) (tf pt : ℕ) (copyOk : Bool) : Ptable × Int32 :=
  match allocproc t tf pt with
  | (t, none) => (t, -1)
  | (t, some np) =>
    if copyOk then
      (t.set np { t.proc np with sz := (t.proc p).sz, parent := some p, state := .runnable },
        (t.proc np).pid)
    else (t.set np (freeproc (t.proc np)), -1)

/-- `reparent`: pass `p`'s children to `initproc`. -/
def reparent (t : Ptable) (p : Fin nproc) : Ptable :=
  { t with proc := fun i =>
      if (t.proc i).parent = some p then { t.proc i with parent := t.initproc } else t.proc i }

/-- `exit(status)` by the process in slot `p`; `none` for `panic("init exiting")`. -/
def exit (t : Ptable) (p : Fin nproc) (status : Int32) : Option Ptable :=
  if t.initproc = some p then none
  else
    let t' := reparent t p
    some (t'.set p { t'.proc p with xstate := status, state := .zombie })

/-- `wait` by the process in slot `p`: reap the first ZOMBIE child, unless copying its status
out fails (`copyOk`: `addr` is 0 or `copyout` succeeds); return -1 with no children or when
killed; `none` where it sleeps.  Besides the table and the return value, the status handed to
the caller when a child is reaped. -/
def wait (t : Ptable) (p : Fin nproc) (copyOk : Bool) : Option (Ptable × Int32 × Option Int32) :=
  match t.first (fun q => q.parent == some p && q.state == .zombie) with
  | some c =>
    if copyOk then some (t.set c (freeproc (t.proc c)), (t.proc c).pid, some (t.proc c).xstate)
    else some (t, -1, none)
  | none =>
    if (t.first fun q => q.parent == some p).isNone || (t.proc p).killed != 0 then
      some (t, -1, none)
    else none

/-! ### The system -/

/-- What can happen to the table. -/
inductive Action
  | userinit (tf pt : ℕ)
  | fork (p : Fin nproc) (tf pt : ℕ) (copyOk : Bool)
  | exit (p : Fin nproc) (status : Int32)
  | wait (p : Fin nproc) (copyOk : Bool)
  | kill (caller : Fin nproc) (pid : Int32)
  /-- `scheduler` runs a RUNNABLE process. -/
  | schedule (p : Fin nproc)
  /-- `yield`. -/
  | yield (p : Fin nproc)
  /-- `sleep`. -/
  | sleep (p : Fin nproc)
  /-- `wakeup` of a sleeping process. -/
  | wakeup (p : Fin nproc)

/-- Whether slot `p` is running, so that it can make a system call. -/
def Ptable.Running (t : Ptable) (p : Fin nproc) : Prop := (t.proc p).state = .running

instance (t : Ptable) (p : Fin nproc) : Decidable (t.Running p) :=
  inferInstanceAs (Decidable ((t.proc p).state = .running))

/-- Move slot `p` from state `a` to state `b`. -/
def Ptable.move (t : Ptable) (p : Fin nproc) (a b : Procstate) : Option Ptable :=
  if (t.proc p).state = a then some (t.set p { t.proc p with state := b }) else none

/-- One step of the system. -/
def step (t : Ptable) : Action → Option Ptable
  | .userinit tf pt => if t.initproc = none then userinit t tf pt else none
  | .fork p tf pt ok => if t.Running p then some (fork t p tf pt ok).1 else none
  | .exit p status => if t.Running p then exit t p status else none
  | .wait p ok => if t.Running p then (wait t p ok).map Prod.fst else none
  | .kill c pid => if t.Running c then some (kill t pid).1 else none
  | .schedule p => t.move p .runnable .running
  | .yield p => t.move p .running .runnable
  | .sleep p => t.move p .running .sleeping
  | .wakeup p => t.move p .sleeping .runnable

/-! ### What every UNUSED slot holds -/

/-- A property `Q` of slots that each operation keeps: every slot `freeproc` returns and every
slot in use has it, and it does not look at `parent`, which `reparent` rewrites. -/
structure SlotInv (Q : Proc → Prop) : Prop where
  freeproc : ∀ p, Q (freeproc p)
  used : ∀ p, p.state ≠ .unused → Q p
  parent : ∀ p x, Q { p with parent := x } ↔ Q p

section SlotInv

variable {Q : Proc → Prop}

/-- `Q` of every slot of the table. -/
def Ptable.All (Q : Proc → Prop) (t : Ptable) : Prop := ∀ i, Q (t.proc i)

theorem Ptable.All.set {t : Ptable} (ht : t.All Q) {p : Proc} (hp : Q p) (i : Fin nproc) :
    (t.set i p).All Q := by
  intro j
  by_cases hj : j = i
  · subst hj
    simpa using hp
  · simpa [hj] using ht j

theorem allocproc_all (hQ : SlotInv Q) {t : Ptable} (ht : t.All Q) (tf pt : ℕ) :
    (allocproc t tf pt).1.All Q := by
  unfold allocproc
  split
  · exact ht
  · -- `allocpid` leaves the slots alone
    have ht' : (allocpid t).2.All Q := ht
    split_ifs
    · exact ht'.set (hQ.freeproc _) _
    · exact ht'.set (hQ.freeproc _) _
    · exact ht'.set (hQ.used _ (by simp)) _

theorem userinit_all (hQ : SlotInv Q) {t t' : Ptable} (ht : t.All Q) {tf pt : ℕ}
    (h : userinit t tf pt = some t') : t'.All Q := by
  unfold userinit at h
  have ha := allocproc_all hQ ht tf pt
  split at h
  · cases h
  · rename_i t1 i heq
    rw [heq] at ha
    cases h
    exact ha.set (hQ.used _ (by simp)) i

theorem fork_all (hQ : SlotInv Q) {t : Ptable} (ht : t.All Q) (p : Fin nproc) (tf pt : ℕ)
    (ok : Bool) : (fork t p tf pt ok).1.All Q := by
  unfold fork
  have ha := allocproc_all hQ ht tf pt
  split
  · rename_i t1 heq
    rw [heq] at ha
    exact ha
  · rename_i t1 np heq
    rw [heq] at ha
    split_ifs
    · exact ha.set (hQ.used _ (by simp)) np
    · exact ha.set (hQ.freeproc _) np

theorem reparent_all (hQ : SlotInv Q) {t : Ptable} (ht : t.All Q) (p : Fin nproc) :
    (reparent t p).All Q := by
  intro i
  simp only [reparent]
  split_ifs
  · exact (hQ.parent _ _).2 (ht i)
  · exact ht i

theorem exit_all (hQ : SlotInv Q) {t t' : Ptable} (ht : t.All Q) {p : Fin nproc}
    {status : Int32} (h : exit t p status = some t') : t'.All Q := by
  unfold exit at h
  split_ifs at h
  cases h
  exact (reparent_all hQ ht p).set (hQ.used _ (by simp)) p

theorem wait_all (hQ : SlotInv Q) {t : Ptable} (ht : t.All Q) {p : Fin nproc} {ok : Bool}
    {r : Ptable × Int32 × Option Int32} (h : wait t p ok = some r) : r.1.All Q := by
  unfold wait at h
  split at h
  · split_ifs at h
    · cases h
      exact ht.set (hQ.freeproc _) _
    · cases h
      exact ht
  · split_ifs at h
    cases h
    exact ht

theorem move_all (hQ : SlotInv Q) {t t' : Ptable} (ht : t.All Q) {p : Fin nproc}
    {a b : Procstate} (hb : b ≠ .unused) (h : t.move p a b = some t') : t'.All Q := by
  unfold Ptable.move at h
  split_ifs at h
  cases h
  exact ht.set (hQ.used _ hb) p

/-- Every step but `kill` keeps `Q` of every slot. -/
theorem step_all_of_ne_kill (hQ : SlotInv Q) {t t' : Ptable} (ht : t.All Q) {a : Action}
    (hk : ∀ c pid, a ≠ .kill c pid) (h : step t a = some t') : t'.All Q := by
  cases a with
  | userinit tf pt =>
    simp only [step] at h
    split_ifs at h
    exact userinit_all hQ ht h
  | fork p tf pt ok =>
    simp only [step] at h
    split_ifs at h
    cases h
    exact fork_all hQ ht p tf pt ok
  | exit p status =>
    simp only [step] at h
    split_ifs at h
    exact exit_all hQ ht h
  | wait p ok =>
    simp only [step] at h
    split_ifs at h
    obtain ⟨r, hr, rfl⟩ := Option.map_eq_some_iff.1 h
    exact wait_all hQ ht hr
  | kill c pid => exact absurd rfl (hk c pid)
  | schedule p => exact move_all hQ ht (by simp) h
  | yield p => exact move_all hQ ht (by simp) h
  | sleep p => exact move_all hQ ht (by simp) h
  | wakeup p => exact move_all hQ ht (by simp) h

end SlotInv

/-- An UNUSED slot has pid 0, no trapframe and no page table. -/
def Zeroed (p : Proc) : Prop :=
  p.state = .unused → p.pid = 0 ∧ p.trapframe = 0 ∧ p.pagetable = 0

/-- An UNUSED slot is zeroed and not killed. -/
def Clean (p : Proc) : Prop := Zeroed p ∧ (p.state = .unused → p.killed = 0)

theorem slotInv_zeroed : SlotInv Zeroed where
  freeproc _ _ := ⟨rfl, rfl, rfl⟩
  used _ h h' := absurd h' h
  parent _ _ := Iff.rfl

theorem slotInv_clean : SlotInv Clean where
  freeproc _ := ⟨slotInv_zeroed.freeproc _, fun _ => rfl⟩
  used p h := ⟨slotInv_zeroed.used p h, fun h' => absurd h' h⟩
  parent _ _ := Iff.rfl

/-- `kill` changes only `killed` and wakes a sleeper: an UNUSED slot stays UNUSED with its
pid, trapframe and page table. -/
theorem kill_zeroed {t : Ptable} (ht : t.All Zeroed) (pid : Int32) : (kill t pid).1.All Zeroed := by
  unfold kill
  split
  · exact ht
  · rename_i i _
    dsimp only
    refine ht.set (fun hu => ?_) i
    -- the new state is UNUSED only when the old one was
    dsimp only at hu
    by_cases hsl : (t.proc i).state = .sleeping
    · simp [hsl] at hu
    · rw [if_neg hsl] at hu
      exact ht i hu

/-- `kill` of a nonzero pid finds a slot in use, whose `killed` it may set. -/
theorem kill_clean {t : Ptable} (ht : t.All Clean) {pid : Int32} (hpid : pid ≠ 0) :
    (kill t pid).1.All Clean := by
  unfold kill
  split
  · exact ht
  · rename_i i hi
    have hpi : (t.proc i).pid = pid := by simpa using Ptable.first_spec hi
    have hu : (t.proc i).state ≠ .unused := fun hs => hpid (hpi ▸ ((ht i).1 hs).1)
    refine ht.set (slotInv_clean.used _ ?_) i
    split_ifs <;> simp [hu]

/-- Every UNUSED slot of every reachable table has pid 0, no trapframe and no page table. -/
theorem unused_zeroed {t : Ptable} (h : Steps.Reachable step procinit t) : t.All Zeroed := by
  refine Steps.Reachable.inv (fun _ _ => ⟨rfl, rfl, rfl⟩) (fun s a s' hs hstep => ?_) h
  by_cases hk : ∃ c pid, a = .kill c pid
  · obtain ⟨c, pid, rfl⟩ := hk
    simp only [step] at hstep
    split_ifs at hstep
    cases hstep
    exact kill_zeroed hs pid
  · simp only [not_exists] at hk
    exact step_all_of_ne_kill slotInv_zeroed hs hk hstep

/-- The system in which no process calls `kill(0)`. -/
def stepNoKillZero (t : Ptable) : Action → Option Ptable
  | .kill c pid => if pid = 0 then none else step t (.kill c pid)
  | a => step t a

/-- When no process calls `kill(0)`, every UNUSED slot also has `killed = 0`. -/
theorem unused_not_killed {t : Ptable} (h : Steps.Reachable stepNoKillZero procinit t) :
    t.All Clean := by
  refine Steps.Reachable.inv (fun _ => ⟨fun _ => ⟨rfl, rfl, rfl⟩, fun _ => rfl⟩)
    (fun s a s' hs hstep => ?_) h
  cases a with
  | kill c pid =>
    simp only [stepNoKillZero, step] at hstep
    split_ifs at hstep with h0
    cases hstep
    exact kill_clean hs h0
  | _ =>
    have h' := hstep
    simp only [stepNoKillZero] at h'
    exact step_all_of_ne_kill slotInv_clean hs (by simp) h'

/-- **`kill(0)` marks an UNUSED slot.**  Right after `userinit` and its first scheduling, no
process in use has pid 0; `kill(0)` still returns 0, because it matches the UNUSED slot 1 (pid
0), and sets that slot's `killed`.  The next `fork` hands slot 1 out, RUNNABLE and killed. -/
theorem kill_zero_marks_unused :
    ∃ t, Steps.run step procinit [.userinit 4096 8192, .schedule 0] = some t ∧
      (∀ i, (t.proc i).state ≠ .unused → (t.proc i).pid ≠ 0) ∧
      (kill t 0).2 = 0 ∧ ((kill t 0).1.proc 1).state = .unused ∧
      ((kill t 0).1.proc 1).killed = 1 ∧
      ((fork (kill t 0).1 0 12288 16384 true).1.proc 1).state = .runnable ∧
      ((fork (kill t 0).1 0 12288 16384 true).1.proc 1).killed = 1 :=
  ⟨_, rfl, by decide⟩

/-! ### Parents and `wait` -/

theorem Ptable.first_none {t : Ptable} {P : Proc → Bool} :
    t.first P = none ↔ ∀ i, P (t.proc i) = false := by
  unfold Ptable.first
  rw [List.find?_eq_none]
  exact ⟨fun h i => by simpa using h i (List.mem_finRange i), fun h i _ => by simp [h i]⟩

theorem Ptable.set_set (t : Ptable) (i : Fin nproc) (p q : Proc) : (t.set i p).set i q = t.set i q := by
  simp [Ptable.set]

/-- Two slots alike for the parent relation: both in use or not, both zombies or not, with the
same parent. -/
def Proc.Alike (a b : Proc) : Prop :=
  (a.state = .unused ↔ b.state = .unused) ∧ (a.state = .zombie ↔ b.state = .zombie) ∧
    a.parent = b.parent

theorem Proc.Alike.refl (a : Proc) : a.Alike a := ⟨Iff.rfl, Iff.rfl, rfl⟩

/-- The parent relation: every process in use but `initproc` has a parent, which is in use and
not a zombie; `initproc` is in use, never a zombie and nobody's child, and before it exists no
slot is in use; an UNUSED slot has no parent. -/
structure Family (t : Ptable) : Prop where
  unused_parent : ∀ i, (t.proc i).state = .unused → (t.proc i).parent = none
  has_parent : ∀ i, (t.proc i).state ≠ .unused → t.initproc ≠ some i → (t.proc i).parent ≠ none
  parent_live : ∀ i j, (t.proc i).state ≠ .unused → (t.proc i).parent = some j →
    (t.proc j).state ≠ .unused ∧ (t.proc j).state ≠ .zombie
  init : ∀ k, t.initproc = some k →
    (t.proc k).state ≠ .unused ∧ (t.proc k).state ≠ .zombie ∧ (t.proc k).parent = none
  no_init : t.initproc = none → ∀ i, (t.proc i).state = .unused

section Family

variable {t t' : Ptable}

/-- Only the parent relation matters: tables whose slots are alike, with the same `initproc`,
both have it or both do not. -/
theorem Family.of_alike (hf : Family t) (hinit : t'.initproc = t.initproc)
    (h : ∀ j, (t.proc j).Alike (t'.proc j)) : Family t' where
  unused_parent i hi := (h i).2.2 ▸ hf.unused_parent i ((h i).1.2 hi)
  has_parent i hi hne := (h i).2.2 ▸ hf.has_parent i (fun h' => hi ((h i).1.1 h')) (hinit ▸ hne)
  parent_live i j hi hp := by
    obtain ⟨hu, hz⟩ := hf.parent_live i j (fun h' => hi ((h i).1.1 h')) ((h i).2.2 ▸ hp)
    exact ⟨fun h' => hu ((h j).1.2 h'), fun h' => hz ((h j).2.1.2 h')⟩
  init k hk := by
    obtain ⟨hu, hz, hp⟩ := hf.init k (hinit ▸ hk)
    exact ⟨fun h' => hu ((h k).1.2 h'), fun h' => hz ((h k).2.1.2 h'), (h k).2.2 ▸ hp⟩
  no_init hn i := (h i).1.1 (hf.no_init (hinit ▸ hn) i)

/-- A new child of a live process `p` in a slot that was UNUSED. -/
theorem Family.adopt (hf : Family t) {i p : Fin nproc} {q : Proc} (hi : (t.proc i).state = .unused)
    (hp : (t.proc p).state ≠ .unused ∧ (t.proc p).state ≠ .zombie) (hq : q.state ≠ .unused)
    (hpar : q.parent = some p) : Family (t.set i q) := by
  have hpi : p ≠ i := fun h => hp.1 (h ▸ hi)
  -- an UNUSED slot is nobody's parent and not `initproc`
  have hnot : ∀ x j, (t.proc x).state ≠ .unused → (t.proc x).parent = some j → j ≠ i :=
    fun x j hx hj h => (hf.parent_live x j hx hj).1 (h ▸ hi)
  have hinit : ∀ k, t.initproc = some k → k ≠ i := fun k hk h => (hf.init k hk).1 (h ▸ hi)
  refine ⟨fun j hj => ?_, fun j hj hne => ?_, fun x j hx hj => ?_, fun k hk => ?_, fun hn => ?_⟩
  · by_cases hji : j = i
    · subst hji
      simp [hq] at hj
    · rw [Ptable.set_proc_ne _ _ hji] at hj ⊢
      exact hf.unused_parent j hj
  · by_cases hji : j = i
    · subst hji
      simp [hpar]
    · rw [Ptable.set_proc_ne _ _ hji] at hj ⊢
      exact hf.has_parent j hj hne
  · by_cases hxi : x = i
    · subst hxi
      rw [Ptable.set_proc_self, hpar, Option.some.injEq] at hj
      subst hj
      rw [Ptable.set_proc_ne _ _ hpi]
      exact hp
    · rw [Ptable.set_proc_ne _ _ hxi] at hx hj
      rw [Ptable.set_proc_ne _ _ (hnot x j hx hj)]
      exact hf.parent_live x j hx hj
  · rw [Ptable.set_initproc] at hk
    rw [Ptable.set_proc_ne _ _ (hinit k hk)]
    exact hf.init k hk
  · exact absurd (hf.no_init hn p) hp.1

/-- Freeing a zombie, which is nobody's parent and not `initproc`. -/
theorem Family.free (hf : Family t) {c : Fin nproc} (hc : (t.proc c).state = .zombie) :
    Family (t.set c (freeproc (t.proc c))) := by
  have hnot : ∀ x j, (t.proc x).state ≠ .unused → (t.proc x).parent = some j → j ≠ c :=
    fun x j hx hj h => (hf.parent_live x j hx hj).2 (h ▸ hc)
  refine ⟨fun j hj => ?_, fun j hj hne => ?_, fun x j hx hj => ?_, fun k hk => ?_, fun hn => ?_⟩
  · by_cases hjc : j = c
    · subst hjc
      simp [freeproc]
    · rw [Ptable.set_proc_ne _ _ hjc] at hj ⊢
      exact hf.unused_parent j hj
  · by_cases hjc : j = c
    · subst hjc
      exact absurd (by simp [freeproc]) hj
    · rw [Ptable.set_proc_ne _ _ hjc] at hj ⊢
      exact hf.has_parent j hj hne
  · by_cases hxc : x = c
    · subst hxc
      exact absurd (by simp [freeproc]) hx
    · rw [Ptable.set_proc_ne _ _ hxc] at hx hj
      rw [Ptable.set_proc_ne _ _ (hnot x j hx hj)]
      exact hf.parent_live x j hx hj
  · rw [Ptable.set_initproc] at hk
    have hkc : k ≠ c := fun h => (hf.init k hk).2.1 (h ▸ hc)
    rw [Ptable.set_proc_ne _ _ hkc]
    exact hf.init k hk
  · have := hf.no_init hn c
    rw [hc] at this
    cases this

/-- A failed `allocproc` leaves a table alike: it hands out no slot, or frees the one it took. -/
theorem allocproc_none_alike (hf : Family t) {tf pt : ℕ} {t1 : Ptable}
    (h : allocproc t tf pt = (t1, none)) :
    t1.initproc = t.initproc ∧ ∀ j, (t.proc j).Alike (t1.proc j) := by
  unfold allocproc at h
  split at h
  · cases h
    exact ⟨rfl, fun j => Proc.Alike.refl _⟩
  · rename_i i hi
    have hu : (t.proc i).state = .unused := by simpa using Ptable.first_spec hi
    -- the slot taken is freed again: UNUSED, with the parent it had, none
    have hfree : ∀ q : Proc, (t.proc i).Alike (freeproc q) :=
      fun q => ⟨by simp [freeproc, hu], by simp [freeproc, hu], hf.unused_parent i hu⟩
    have hset : ∀ q : Proc, t1 = (allocpid t).2.set i (freeproc q) →
        t1.initproc = t.initproc ∧ ∀ j, (t.proc j).Alike (t1.proc j) := by
      intro q h1
      subst h1
      refine ⟨rfl, fun j => ?_⟩
      by_cases hj : j = i
      · subst hj
        rw [Ptable.set_proc_self]
        exact hfree q
      · rw [Ptable.set_proc_ne _ _ hj]
        exact Proc.Alike.refl _
    split_ifs at h
    · exact hset _ (Prod.mk.inj h).1.symm
    · exact hset _ (Prod.mk.inj h).1.symm
    · cases (Prod.mk.inj h).2

/-- A successful `allocproc` took an UNUSED slot, kept its parent, and changed nothing else but
`nextpid`. -/
theorem allocproc_some {tf pt : ℕ} {t1 : Ptable} {i : Fin nproc}
    (h : allocproc t tf pt = (t1, some i)) :
    (t.proc i).state = .unused ∧ (t1.proc i).parent = (t.proc i).parent ∧
      t1.initproc = t.initproc ∧ ∀ j, j ≠ i → t1.proc j = t.proc j := by
  unfold allocproc at h
  split at h
  · cases h
  · rename_i i' hi
    have hu : (t.proc i').state = .unused := by simpa using Ptable.first_spec hi
    split_ifs at h
    · cases (Prod.mk.inj h).2
    · cases (Prod.mk.inj h).2
    · obtain ⟨rfl, h2⟩ := Prod.mk.inj h
      obtain rfl : i' = i := Option.some.inj h2
      exact ⟨hu, by simp, rfl, fun j hj => Ptable.set_proc_ne _ _ hj⟩

theorem Family.userinit (hf : Family t) (hn : t.initproc = none) {tf pt : ℕ}
    (h : userinit t tf pt = some t') : Family t' := by
  unfold Xv6.ProcTable.userinit at h
  split at h
  · cases h
  · rename_i t1 i heq
    cases h
    obtain ⟨hu, hpar, -, hother⟩ := allocproc_some heq
    -- before `userinit` no slot is in use; after it only `initproc` is
    have hall := hf.no_init hn
    rw [hf.unused_parent i hu] at hpar
    have hj : ∀ j, j ≠ i → (t1.proc j).state = .unused := fun j hji => (hother j hji) ▸ hall j
    refine ⟨fun j hj' => ?_, fun j hj' hne => ?_, fun x j hx _ => ?_, fun k hk => ?_, fun h' => ?_⟩
    · by_cases hji : j = i
      · subst hji
        simp at hj'
      · simp only [Ptable.set_proc_ne _ _ hji] at hj' ⊢
        rw [hother j hji]
        exact hf.unused_parent j (hall j)
    · by_cases hji : j = i
      · exact absurd (by rw [hji]) hne
      · simp only [Ptable.set_proc_ne _ _ hji] at hj'
        exact absurd (hj j hji) hj'
    · by_cases hxi : x = i
      · subst hxi
        simp only [Ptable.set_proc_self] at *
        rw [hpar] at *
        cases ‹(none : Option (Fin nproc)) = some j›
      · simp only [Ptable.set_proc_ne _ _ hxi] at hx
        exact absurd (hj x hxi) hx
    · simp only [Option.some.injEq] at hk
      subst hk
      simp [hpar]
    · cases h'

theorem Family.fork (hf : Family t) {p : Fin nproc} (hp : t.Running p) (tf pt : ℕ) (ok : Bool) :
    Family (fork t p tf pt ok).1 := by
  unfold Xv6.ProcTable.fork
  split
  · rename_i t1 heq
    obtain ⟨hinit, hal⟩ := allocproc_none_alike hf heq
    exact hf.of_alike hinit hal
  · rename_i t1 np heq
    obtain ⟨hu, hpar, hinit, hother⟩ := allocproc_some heq
    have hpnp : p ≠ np := fun h => by
      rw [h] at hp
      simp [Ptable.Running, hu] at hp
    -- compared with `t`, only slot `np` changes
    have hframe : ∀ q : Proc, ∀ j, j ≠ np → (t.proc j).Alike ((t1.set np q).proc j) :=
      fun q j hj => by
        rw [Ptable.set_proc_ne _ _ hj, hother j hj]
        exact Proc.Alike.refl _
    split_ifs
    · -- the child, RUNNABLE, with `p` as its parent
      have hf' : Family (t.set np
          { t1.proc np with sz := (t1.proc p).sz, parent := some p, state := .runnable }) :=
        hf.adopt hu ⟨by simp [Ptable.Running] at hp; simp [hp], by
          simp [Ptable.Running] at hp; simp [hp]⟩ (by simp) rfl
      refine hf'.of_alike (by simpa using hinit) fun j => ?_
      by_cases hj : j = np
      · subst hj
        simp only [Ptable.set_proc_self]
        exact Proc.Alike.refl _
      · rw [Ptable.set_proc_ne _ _ hj]
        exact hframe _ j hj
    · -- the copy failed: the child's slot is freed again
      refine hf.of_alike (by simpa using hinit) fun j => ?_
      by_cases hj : j = np
      · subst hj
        rw [Ptable.set_proc_self]
        exact ⟨by simp [freeproc, hu], by simp [freeproc, hu], by
          rw [hf.unused_parent _ hu]
          rfl⟩
      · exact hframe _ j hj

theorem reparent_state (t : Ptable) (p i : Fin nproc) :
    ((reparent t p).proc i).state = (t.proc i).state := by
  simp only [reparent]
  split_ifs <;> rfl

theorem reparent_parent (t : Ptable) (p i : Fin nproc) :
    ((reparent t p).proc i).parent =
      if (t.proc i).parent = some p then t.initproc else (t.proc i).parent := by
  simp only [reparent]
  split_ifs <;> rfl

theorem Family.exit (hf : Family t) {p : Fin nproc} (hp : t.Running p) {status : Int32}
    (h : exit t p status = some t') : Family t' := by
  unfold Xv6.ProcTable.exit at h
  split_ifs at h with hinitp
  cases h
  have hpu : (t.proc p).state ≠ .unused := by
    simp only [Ptable.Running] at hp
    simp [hp]
  obtain ⟨k, hk⟩ : ∃ k, t.initproc = some k := by
    cases hi : t.initproc with
    | none => exact absurd (hf.no_init hi p) hpu
    | some k => exact ⟨k, rfl⟩
  have hkp : k ≠ p := fun h => hinitp (h ▸ hk)
  obtain ⟨hku, hkz, hkpar⟩ := hf.init k hk
  -- every slot but `p` keeps its state; a child of `p` now has `initproc` as its parent
  have hst : ∀ j, j ≠ p → ∀ q, ((reparent t p).set p q).proc j = (reparent t p).proc j :=
    fun j hj _ => Ptable.set_proc_ne _ _ hj
  refine ⟨fun j hj => ?_, fun j hj hne => ?_, fun x j hx hj => ?_, fun k' hk' => ?_, fun hn => ?_⟩
  · by_cases hjp : j = p
    · subst hjp
      simp at hj
    · rw [hst j hjp, reparent_state] at hj
      rw [hst j hjp, reparent_parent, hf.unused_parent j hj]
      simp
  · have hne' : t.initproc ≠ some j := hne
    have hju : (t.proc j).state ≠ .unused := by
      by_cases hjp : j = p
      · rw [hjp]
        exact hpu
      · rwa [hst j hjp, reparent_state] at hj
    have hpar : ((reparent t p).proc j).parent ≠ none := by
      rw [reparent_parent]
      split_ifs
      · simp [hk]
      · exact hf.has_parent j hju hne'
    by_cases hjp : j = p
    · subst hjp
      simpa using hpar
    · rwa [hst j hjp]
  · have hxu : (t.proc x).state ≠ .unused := by
      by_cases hxp : x = p
      · rw [hxp]
        exact hpu
      · rwa [hst x hxp, reparent_state] at hx
    have hpar : ((reparent t p).proc x).parent = some j := by
      by_cases hxp : x = p
      · subst hxp
        simpa using hj
      · rwa [hst x hxp] at hj
    rw [reparent_parent] at hpar
    split_ifs at hpar with hxp'
    · -- a child of `p`, now `initproc`'s
      rw [hk, Option.some.injEq] at hpar
      subst hpar
      rw [hst k hkp, reparent_state]
      exact ⟨hku, hkz⟩
    · have hjp : j ≠ p := fun h => hxp' (h ▸ hpar)
      rw [hst j hjp, reparent_state]
      exact hf.parent_live x j hxu hpar
  · have hk'' : k' = k := by
      simp only [Ptable.set_initproc] at hk'
      exact Option.some.inj (hk'.symm.trans hk)
    subst hk''
    rw [hst k' hkp, reparent_state, reparent_parent, hkpar]
    exact ⟨hku, hkz, by simp⟩
  · simp only [Ptable.set_initproc] at hn
    exact absurd (hn.symm.trans hk) (by simp)

theorem kill_alike (t : Ptable) (pid : Int32) :
    (kill t pid).1.initproc = t.initproc ∧ ∀ j, (t.proc j).Alike ((kill t pid).1.proc j) := by
  unfold kill
  split
  · exact ⟨rfl, fun j => Proc.Alike.refl _⟩
  · rename_i i _
    refine ⟨rfl, fun j => ?_⟩
    by_cases hj : j = i
    · -- only a sleeper changes state, to RUNNABLE
      subst hj
      simp only [Ptable.set_proc_self]
      refine ⟨?_, ?_, rfl⟩ <;> split_ifs with hs <;> simp [hs]
    · rw [Ptable.set_proc_ne _ _ hj]
      exact Proc.Alike.refl _

theorem move_alike {p : Fin nproc} {a b : Procstate} (ha : a ≠ .unused ∧ a ≠ .zombie)
    (hb : b ≠ .unused ∧ b ≠ .zombie) (h : t.move p a b = some t') :
    t'.initproc = t.initproc ∧ ∀ j, (t.proc j).Alike (t'.proc j) := by
  unfold Ptable.move at h
  split_ifs at h with hs
  cases h
  refine ⟨rfl, fun j => ?_⟩
  by_cases hj : j = p
  · subst hj
    rw [Ptable.set_proc_self]
    refine ⟨?_, ?_, rfl⟩ <;> simp [hs, ha, hb]
  · rw [Ptable.set_proc_ne _ _ hj]
    exact Proc.Alike.refl _

theorem family_step {a : Action} (hf : Family t) (h : step t a = some t') : Family t' := by
  cases a with
  | userinit tf pt =>
    simp only [step] at h
    split_ifs at h with hn
    exact hf.userinit hn h
  | fork p tf pt ok =>
    simp only [step] at h
    split_ifs at h with hp
    cases h
    exact hf.fork hp tf pt ok
  | exit p status =>
    simp only [step] at h
    split_ifs at h with hp
    exact hf.exit hp h
  | wait p ok =>
    simp only [step] at h
    split_ifs at h
    obtain ⟨r, hr, rfl⟩ := Option.map_eq_some_iff.1 h
    unfold wait at hr
    split at hr
    · rename_i c hc
      have hz : (t.proc c).state = .zombie := by
        have := Ptable.first_spec hc
        simp only [Bool.and_eq_true, beq_iff_eq] at this
        exact this.2
      split_ifs at hr
      · cases hr
        exact hf.free hz
      · cases hr
        exact hf
    · split_ifs at hr
      cases hr
      exact hf
  | kill c pid =>
    simp only [step] at h
    split_ifs at h
    cases h
    obtain ⟨hi, hal⟩ := kill_alike t pid
    exact hf.of_alike hi hal
  | schedule p => exact hf.of_alike (move_alike (by simp) (by simp) h).1 (move_alike (by simp) (by simp) h).2
  | yield p => exact hf.of_alike (move_alike (by simp) (by simp) h).1 (move_alike (by simp) (by simp) h).2
  | sleep p => exact hf.of_alike (move_alike (by simp) (by simp) h).1 (move_alike (by simp) (by simp) h).2
  | wakeup p => exact hf.of_alike (move_alike (by simp) (by simp) h).1 (move_alike (by simp) (by simp) h).2

/-- The parent relation holds in every reachable table. -/
theorem family_of_reachable (h : Steps.Reachable step procinit t) : Family t :=
  Steps.Reachable.inv (I := Family)
    ⟨fun _ _ => rfl, fun _ h => absurd rfl h, fun _ _ h => absurd rfl h, fun _ h => (by cases h),
      fun _ _ => rfl⟩
    (fun _ _ _ hf h => family_step hf h) h

end Family

/-! ### Reaping zombies -/

section Reap

variable {t t' : Ptable}

/-- `allocproc` writes only a slot that was UNUSED. -/
theorem allocproc_proc_of_used (tf pt : ℕ) {j : Fin nproc} (hj : (t.proc j).state ≠ .unused) :
    (allocproc t tf pt).1.proc j = t.proc j := by
  unfold allocproc
  split
  · rfl
  · rename_i i hi
    have hji : j ≠ i := fun h => hj (h ▸ by simpa using Ptable.first_spec hi)
    split_ifs <;> exact Ptable.set_proc_ne _ _ hji

theorem fork_proc_of_used {p : Fin nproc} {tf pt : ℕ} {ok : Bool} {j : Fin nproc}
    (hj : (t.proc j).state ≠ .unused) : (fork t p tf pt ok).1.proc j = t.proc j := by
  unfold fork
  split
  · rename_i t1 heq
    have := allocproc_proc_of_used tf pt hj
    rwa [heq] at this
  · rename_i t1 np heq
    obtain ⟨hu, -, -, hother⟩ := allocproc_some heq
    have hjn : j ≠ np := fun h => hj (h ▸ hu)
    split_ifs <;> rw [Ptable.set_proc_ne _ _ hjn, hother j hjn]

theorem userinit_proc_of_used {tf pt : ℕ} {j : Fin nproc} (hj : (t.proc j).state ≠ .unused)
    (h : userinit t tf pt = some t') : t'.proc j = t.proc j := by
  unfold userinit at h
  split at h
  · cases h
  · rename_i t1 i heq
    cases h
    obtain ⟨hu, -, -, hother⟩ := allocproc_some heq
    have hji : j ≠ i := fun h => hj (h ▸ hu)
    show (t1.set i _).proc j = _
    rw [Ptable.set_proc_ne _ _ hji, hother j hji]

/-- A zombie leaves that state only through a `wait` of its parent that finds it and copies its
status out; that `wait` returns its pid and status and frees its slot. -/
theorem zombie_step {c : Fin nproc} {a : Action} (hc : (t.proc c).state = .zombie)
    (h : step t a = some t') (h' : (t'.proc c).state ≠ .zombie) :
    ∃ p, a = .wait p true ∧ (t.proc c).parent = some p ∧
      wait t p true = some (t', (t.proc c).pid, some (t.proc c).xstate) ∧
      (t'.proc c).state = .unused := by
  have hcu : (t.proc c).state ≠ .unused := by simp [hc]
  -- a step that leaves slot `c` alone cannot be the one
  have hsame : t'.proc c = t.proc c → False := fun he => h' (he ▸ hc)
  cases a with
  | userinit tf pt =>
    simp only [step] at h
    split_ifs at h
    exact (hsame (userinit_proc_of_used hcu h)).elim
  | fork p tf pt ok =>
    simp only [step] at h
    split_ifs at h
    cases h
    exact (hsame (fork_proc_of_used hcu)).elim
  | exit p status =>
    simp only [step] at h
    split_ifs at h with hp
    unfold exit at h
    split_ifs at h
    cases h
    have hcp : c ≠ p := fun he => by
      rw [he] at hc
      simp [Ptable.Running, hc] at hp
    exact (h' (by rw [Ptable.set_proc_ne _ _ hcp, reparent_state]; exact hc)).elim
  | wait p ok =>
    simp only [step] at h
    split_ifs at h
    obtain ⟨r, hr, rfl⟩ := Option.map_eq_some_iff.1 h
    have hw := hr
    unfold wait at hr
    split at hr
    · rename_i c' hc'
      have hc'spec := Ptable.first_spec hc'
      simp only [Bool.and_eq_true, beq_iff_eq] at hc'spec
      split_ifs at hr with hok
      · cases hr
        by_cases hcc : c = c'
        · -- the zombie `wait` found is `c`
          subst hcc
          subst hok
          exact ⟨p, rfl, hc'spec.1, hw, by simp [freeproc]⟩
        · exact (hsame (Ptable.set_proc_ne _ _ hcc)).elim
      · cases hr
        exact (hsame rfl).elim
    · split_ifs at hr
      cases hr
      exact (hsame rfl).elim
  | kill c' pid =>
    simp only [step] at h
    split_ifs at h
    cases h
    exact (h' (((kill_alike t pid).2 c).2.1.1 hc)).elim
  | schedule p => exact (h' (((move_alike (by simp) (by simp) h).2 c).2.1.1 hc)).elim
  | yield p => exact (h' (((move_alike (by simp) (by simp) h).2 c).2.1.1 hc)).elim
  | sleep p => exact (h' (((move_alike (by simp) (by simp) h).2 c).2.1.1 hc)).elim
  | wakeup p => exact (h' (((move_alike (by simp) (by simp) h).2 c).2.1.1 hc)).elim

theorem first_child_none {t : Ptable} {p : Fin nproc} :
    (t.first fun q => q.parent == some p).isNone = true ↔ ∀ c, (t.proc c).parent ≠ some p := by
  rw [Option.isNone_iff_eq_none, Ptable.first_none]
  simp

theorem first_zombie_none {t : Ptable} {p : Fin nproc} :
    t.first (fun q => q.parent == some p && q.state == .zombie) = none ↔
      ∀ c, ¬((t.proc c).parent = some p ∧ (t.proc c).state = .zombie) := by
  rw [Ptable.first_none]
  simp

/-- `wait` returns `-1` without sleeping or reaping exactly when it finds a zombie child whose
status it cannot copy out, or finds none and the caller has no children or has been killed. -/
theorem wait_eq_neg_one (t : Ptable) (p : Fin nproc) (ok : Bool) :
    wait t p ok = some (t, -1, none) ↔
      ((∃ c, (t.proc c).parent = some p ∧ (t.proc c).state = .zombie) ∧ ok = false) ∨
        ((∀ c, ¬((t.proc c).parent = some p ∧ (t.proc c).state = .zombie)) ∧
          ((∀ c, (t.proc c).parent ≠ some p) ∨ (t.proc p).killed ≠ 0)) := by
  unfold wait
  cases hz : t.first (fun q => q.parent == some p && q.state == .zombie) with
  | some c =>
    have hc := Ptable.first_spec hz
    simp only [Bool.and_eq_true, beq_iff_eq] at hc
    have hex : ∃ c, (t.proc c).parent = some p ∧ (t.proc c).state = .zombie := ⟨c, hc⟩
    cases ok <;> simp [hex]
  | none =>
    have hnone := first_zombie_none.1 hz
    simp only [hnone, not_false_eq_true, implies_true, true_and]
    rw [← first_child_none]
    split_ifs with hk <;> simp_all

/-- `wait` sleeps exactly when it finds no zombie child, and the caller has a child and has not
been killed. -/
theorem wait_eq_none (t : Ptable) (p : Fin nproc) (ok : Bool) :
    wait t p ok = none ↔ (∀ c, ¬((t.proc c).parent = some p ∧ (t.proc c).state = .zombie)) ∧
      (∃ c, (t.proc c).parent = some p) ∧ (t.proc p).killed = 0 := by
  unfold wait
  cases hz : t.first (fun q => q.parent == some p && q.state == .zombie) with
  | some c =>
    have hc := Ptable.first_spec hz
    simp only [Bool.and_eq_true, beq_iff_eq] at hc
    cases ok <;> simp only [reduceCtorEq, if_true, Bool.false_eq_true, if_false, false_iff] <;>
      exact fun h => h.1 c hc
  | none =>
    simp only [first_zombie_none.1 hz, not_false_eq_true, implies_true, true_and]
    by_cases hc : ∃ c, (t.proc c).parent = some p
    · -- a child: `wait` sleeps unless killed
      have hn : (t.first fun q => q.parent == some p).isNone = false := by
        rw [Bool.eq_false_iff, ne_eq, first_child_none]
        push Not
        exact hc
      by_cases hk : (t.proc p).killed = 0 <;> simp [hn, hk, hc]
    · have hn : (t.first fun q => q.parent == some p).isNone = true := by
        rw [first_child_none]
        push Not at hc
        exact hc
      simp [hn, hc]

end Reap

/-- In every reachable table each SLEEPING, RUNNABLE, RUNNING or ZOMBIE process but `initproc`
has a parent in use.  A zombie leaves that state only through a `wait` of its parent that finds
it and copies its status out, which returns its pid, hands over its `xstate` and frees its slot.
`wait` returns `-1` without sleeping or reaping exactly when it finds a zombie child whose status
cannot be copied out, or finds none and the caller has no children or has been killed; it
sleeps exactly when it finds no zombie child and the caller has a child and has not been killed. -/
theorem wait_reaps_of_reachable {t : Ptable} (ht : Steps.Reachable step procinit t) :
    (∀ i, ((t.proc i).state = .sleeping ∨ (t.proc i).state = .runnable ∨
        (t.proc i).state = .running ∨ (t.proc i).state = .zombie) → t.initproc ≠ some i →
      ∃ j, (t.proc i).parent = some j ∧ (t.proc j).state ≠ .unused) ∧
    (∀ c a t', (t.proc c).state = .zombie → step t a = some t' → (t'.proc c).state ≠ .zombie →
      ∃ p, a = .wait p true ∧ (t.proc c).parent = some p ∧
        wait t p true = some (t', (t.proc c).pid, some (t.proc c).xstate) ∧
        (t'.proc c).state = .unused) ∧
    (∀ p ok, wait t p ok = some (t, -1, none) ↔
      ((∃ c, (t.proc c).parent = some p ∧ (t.proc c).state = .zombie) ∧ ok = false) ∨
        ((∀ c, ¬((t.proc c).parent = some p ∧ (t.proc c).state = .zombie)) ∧
          ((∀ c, (t.proc c).parent ≠ some p) ∨ (t.proc p).killed ≠ 0))) ∧
    (∀ p ok, wait t p ok = none ↔ (∀ c, ¬((t.proc c).parent = some p ∧ (t.proc c).state = .zombie)) ∧
      (∃ c, (t.proc c).parent = some p) ∧ (t.proc p).killed = 0) := by
  have hf := family_of_reachable ht
  refine ⟨fun i hi hne => ?_, fun c a t' hc h h' => zombie_step hc h h', wait_eq_neg_one t,
    wait_eq_none t⟩
  have hu : (t.proc i).state ≠ .unused := by
    rcases hi with h | h | h | h <;> simp [h]
  obtain ⟨j, hj⟩ := Option.ne_none_iff_exists'.1 (hf.has_parent i hu hne)
  exact ⟨j, hj, (hf.parent_live i j hu hj).1⟩

/-- The table after `initproc` forks a child that exits, which the statement above covers. -/
theorem wait_reaps_after_exit :
    ∃ t, Steps.run step procinit
        [.userinit 4096 8192, .schedule 0, .fork 0 12288 16384 true, .schedule 1, .exit 1 7] =
        some t ∧
      (∀ i, ((t.proc i).state = .sleeping ∨ (t.proc i).state = .runnable ∨
          (t.proc i).state = .running ∨ (t.proc i).state = .zombie) → t.initproc ≠ some i →
        ∃ j, (t.proc i).parent = some j ∧ (t.proc j).state ≠ .unused) ∧
      (∀ c a t', (t.proc c).state = .zombie → step t a = some t' → (t'.proc c).state ≠ .zombie →
        ∃ p, a = .wait p true ∧ (t.proc c).parent = some p ∧
          wait t p true = some (t', (t.proc c).pid, some (t.proc c).xstate) ∧
          (t'.proc c).state = .unused) ∧
      (∀ p ok, wait t p ok = some (t, -1, none) ↔
        ((∃ c, (t.proc c).parent = some p ∧ (t.proc c).state = .zombie) ∧ ok = false) ∨
          ((∀ c, ¬((t.proc c).parent = some p ∧ (t.proc c).state = .zombie)) ∧
            ((∀ c, (t.proc c).parent ≠ some p) ∨ (t.proc p).killed ≠ 0))) ∧
      (∀ p ok, wait t p ok = none ↔
        (∀ c, ¬((t.proc c).parent = some p ∧ (t.proc c).state = .zombie)) ∧
          (∃ c, (t.proc c).parent = some p) ∧ (t.proc p).killed = 0) := by
  obtain ⟨t, ht⟩ : ∃ t, Steps.run step procinit
      [.userinit 4096 8192, .schedule 0, .fork 0 12288 16384 true, .schedule 1, .exit 1 7] =
      some t := ⟨_, rfl⟩
  exact ⟨t, ht, wait_reaps_of_reachable (Steps.reachable_of_run ht)⟩

/-- `initproc` forks a child, which exits with status 7.  A `wait` whose copy fails returns -1
without sleeping, though the caller has a child and is not killed.  Once the caller is killed,
`wait` still reaps the zombie child and returns its pid, 2, and its status, 7, instead of -1. -/
theorem wait_killed_reaps :
    ∃ t, Steps.run step procinit
        [.userinit 4096 8192, .schedule 0, .fork 0 12288 16384 true, .schedule 1, .exit 1 7] =
        some t ∧
      (t.proc 0).killed = 0 ∧ (t.proc 1).parent = some 0 ∧
      (wait t 0 false).map (fun r => (r.2, (r.1.proc 1).state)) = some ((-1, none), .zombie) ∧
      ∃ t', step t (.kill 0 1) = some t' ∧ (t'.proc 0).killed = 1 ∧
        (wait t' 0 true).map (fun r => r.2) = some (2, some 7) :=
  ⟨_, rfl, by decide, by decide, by decide, _, rfl, by decide, by decide⟩

end Xv6.ProcTable
