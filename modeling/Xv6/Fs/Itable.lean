import Xv6.Fs.Syscall
import Xv6.Lib.Family
import Xv6.Lib.Run

/-!
# The inode table under concurrency (`kernel/fs.c`)

`itable` holds `NINODE` in-memory inodes.  Each entry has a reference count, a sleep-lock and a
copy of its disk inode, good while `valid` is set.  Many threads use the table at once:
`itable.lock` makes the scan of `iget`, the count of `idup` and each end of `iput` atomic, and
the sleep-lock of an entry orders `ilock` against the middle of `iput`, which truncates and frees
the inode with `itable.lock` released.  `ialloc` takes a free disk inode under the lock of its
block alone, and only then calls `iget`.

Each call is cut here into the atomic steps it takes on shared state.  `Pc` says where a thread
is inside `iput` and `ialloc`, and `held` lists the entries a thread holds references to.
Threads use the interface as the callers in `fs.c` and `sysfile.c` do: they lock, unlock,
duplicate and put only entries they hold, and put an entry only once they have unlocked it.
The disks are the block-level `Disk` of `Fs.Disk`, one per device.

* `Inv`, `inv_of_reachable`: each `ref` is the number of references held; the entries in use
  hold distinct inodes; a sleep-lock is held by a thread with a reference, on a valid entry; a
  valid entry in use holds its allocated disk inode, unless `iput` has freed the inode under it
  and still holds the entry's sleep-lock;
* `itable_of_reachable`: so `iget` never gives one inode two entries, only `iput` marks an inode
  free on disk, having started on the last reference to a valid inode with no links, and
  `ilock` always leaves the entry holding the disk inode, never a stale copy.

The sequential model of `Fs.Inode` reads every field of an inode from the disk; `Inv.fresh` is
why that is sound outside `iput`'s window.
-/

namespace Xv6.Itable

open Fs

/-- An entry of `itable`, a `struct inode`: `holder` is the thread holding its sleep-lock, and
`din` its copy of the disk inode. -/
structure Inode (τ : Type) where
  dev : ℕ
  inum : ℕ
  ref : ℕ
  holder : Option τ
  valid : Bool
  din : Dinode

/-- Where a thread is inside a call that takes more than one atomic step. -/
inductive Pc
  | idle
  /-- `iput` holds the sleep-lock of the last reference to an inode with no links, with
  `itable.lock` released: `itrunc` is next. -/
  | trunc (e : Fin ninode)
  /-- `iput` has freed the inode on disk; it clears `valid` and releases the sleep-lock next. -/
  | unlock (e : Fin ninode)
  /-- `iput` takes `itable.lock` again to drop its reference. -/
  | put (e : Fin ninode)
  /-- `ialloc` has allocated inode `inum` of `dev` on disk; its `iget` is next. -/
  | alloc (dev inum : ℕ)
  deriving DecidableEq

/-- The disks, `itable` and the threads. -/
structure Sys (τ : Type) where
  disk : ℕ → Disk
  inode : Fin ninode → Inode τ
  /-- The entries a thread holds references to, an entry once per reference. -/
  held : τ → List (Fin ninode)
  pc : τ → Pc

/-- One atomic step of one thread. -/
inductive Action (τ : Type)
  | iget (t : τ) (dev inum : ℕ)
  | idup (t : τ) (e : Fin ninode)
  | ilock (t : τ) (e : Fin ninode)
  | iunlock (t : τ) (e : Fin ninode)
  /-- A change to a locked inode written back by `iupdate`, as `writei`, `link`, `unlink` and
  `create` make it: none of them changes the type. -/
  | iupdate (t : τ) (e : Fin ninode) (din : Dinode)
  /-- `iput`, up to its release of `itable.lock`. -/
  | iput (t : τ) (e : Fin ninode)
  /-- `ialloc`, up to its call of `iget`. -/
  | ialloc (t : τ) (dev inum : ℕ) (type : IType)
  /-- The next step of the call the thread is in. -/
  | next (t : τ)

variable {τ : Type}

/-- Entry `e` replaced. -/
def Sys.set (s : Sys τ) (e : Fin ninode) (ip : Inode τ) : Sys τ :=
  { s with inode := Function.update s.inode e ip }

/-- Disk inode `inum` of device `dev` written back. -/
def Sys.write (s : Sys τ) (dev inum : ℕ) (din : Dinode) : Sys τ :=
  { s with disk := Function.update s.disk dev ((s.disk dev).setInode inum din) }

section Calls

variable [DecidableEq τ]

/-- Thread `t` takes a reference to entry `e`. -/
def Sys.hold (s : Sys τ) (t : τ) (e : Fin ninode) : Sys τ :=
  { s with held := Function.update s.held t (e :: s.held t) }

/-- `ip->ref--` under `itable.lock`: thread `t` drops a reference to entry `e`. -/
def Sys.drop (s : Sys τ) (t : τ) (e : Fin ninode) : Sys τ :=
  { s.set e { s.inode e with ref := (s.inode e).ref - 1 } with
    held := Function.update s.held t ((s.held t).erase e) }

/-- `iget(dev, inum)`: one more reference to the entry in use that holds the inode, or else the
first unused entry, recycled for it and not valid; `none` is the panic `"iget: no inodes"`. -/
def iget (s : Sys τ) (t : τ) (dev inum : ℕ) : Option (Sys τ) :=
  -- Is the inode already in the table?
  match (List.finRange ninode).find? fun e =>
      0 < (s.inode e).ref ∧ (s.inode e).dev = dev ∧ (s.inode e).inum = inum with
  | some e => some ((s.set e { s.inode e with ref := (s.inode e).ref + 1 }).hold t e)
  | none =>
    -- Recycle an inode entry.
    match (List.finRange ninode).find? fun e => (s.inode e).ref = 0 with
    | some e =>
      some ((s.set e { s.inode e with dev := dev, inum := inum, ref := 1, valid := false }).hold t e)
    | none => none

/-- `idup(ip)`. -/
def idup (s : Sys τ) (t : τ) (e : Fin ninode) : Sys τ :=
  (s.set e { s.inode e with ref := (s.inode e).ref + 1 }).hold t e

/-- `ilock(ip)`: the sleep-lock, then the disk inode unless the entry is valid.  `none` while
another thread holds the lock, and on the panics `"ilock"` (no reference) and
`"ilock: no type"` (a free inode). -/
def ilock (s : Sys τ) (t : τ) (e : Fin ninode) : Option (Sys τ) :=
  let ip := s.inode e
  if ip.ref < 1 ∨ ip.holder ≠ none then none
  else if ip.valid then some (s.set e { ip with holder := some t })
  else
    let din := (s.disk ip.dev).inode ip.inum
    if din.type = .free then none
    else some (s.set e { ip with holder := some t, valid := true, din := din })

/-- `iunlock(ip)`; `none` is the panic `"iunlock"`. -/
def iunlock (s : Sys τ) (t : τ) (e : Fin ninode) : Option (Sys τ) :=
  let ip := s.inode e
  if ip.holder ≠ some t ∨ ip.ref < 1 then none
  else some (s.set e { ip with holder := none })

/-- The copy of entry `e` changed to `din` and written back with `iupdate`. -/
def iupdate (s : Sys τ) (e : Fin ninode) (din : Dinode) : Sys τ :=
  let ip := s.inode e
  (s.set e { ip with din := din }).write ip.dev ip.inum din

/-- The first half of `iput(ip)`, under `itable.lock`.  The last reference to a valid inode with
no links takes the sleep-lock (waiting while another thread holds it) and goes on to free the
inode; any other reference is dropped. -/
def iput (s : Sys τ) (t : τ) (e : Fin ninode) : Option (Sys τ) :=
  let ip := s.inode e
  if ip.ref = 1 ∧ ip.valid ∧ ip.din.nlink = 0 then
    -- inode has no links and no other references: truncate and free.
    if ip.holder = none then
      some { s.set e { ip with holder := some t } with pc := Function.update s.pc t (.trunc e) }
    else none
  else some (s.drop t e)

/-- `itrunc(ip); ip->type = 0; iupdate(ip)`: the inode's blocks freed, and the inode emptied and
marked free on disk and in the entry; `none` is a panic of `bfree`. -/
def iputTrunc (s : Sys τ) (t : τ) (e : Fin ninode) : Option (Sys τ) :=
  let ip := s.inode e
  match itrunc (s.disk ip.dev) ip.inum with
  | .ok d =>
    let din := { d.inode ip.inum with type := .free }
    some { s with
      disk := Function.update s.disk ip.dev (d.setInode ip.inum din)
      inode := Function.update s.inode e { ip with din := din }
      pc := Function.update s.pc t (.unlock e) }
  | .error _ => none

/-- `ip->valid = 0; releasesleep(&ip->lock); acquire(&itable.lock)`. -/
def iputUnlock (s : Sys τ) (t : τ) (e : Fin ninode) : Sys τ :=
  { s.set e { s.inode e with valid := false, holder := none } with
    pc := Function.update s.pc t (.put e) }

/-- The end of `iput`: `ip->ref--`. -/
def iputEnd (s : Sys τ) (t : τ) (e : Fin ninode) : Sys τ :=
  { s.drop t e with pc := Function.update s.pc t .idle }

/-- The disk half of `ialloc(dev, type)`: inode `inum`, found free with its block locked, is
zeroed, given `type` and written (`log_write`).  Its scan reads one block at a time while other
threads run, so it may take any inode from `1` that is free when it looks. -/
def ialloc (s : Sys τ) (t : τ) (dev inum : ℕ) (type : IType) : Option (Sys τ) :=
  if 1 ≤ inum ∧ inum < nInodes ∧ ((s.disk dev).inode inum).type = .free then
    some { s.write dev inum ⟨type, 0, 0, 0, fun _ => 0⟩ with
      pc := Function.update s.pc t (.alloc dev inum) }
  else none

/-- One step; `none` when the action is not enabled, would sleep or would panic.  A thread starts
a call only between calls. -/
def step (s : Sys τ) : Action τ → Option (Sys τ)
  | .iget t dev inum => if s.pc t = .idle then iget s t dev inum else none
  | .idup t e => if s.pc t = .idle ∧ e ∈ s.held t then some (idup s t e) else none
  | .ilock t e => if s.pc t = .idle ∧ e ∈ s.held t then ilock s t e else none
  | .iunlock t e => if s.pc t = .idle then iunlock s t e else none
  | .iupdate t e din =>
    if s.pc t = .idle ∧ (s.inode e).holder = some t ∧ din.type = (s.inode e).din.type then
      some (iupdate s e din)
    else none
  | .iput t e =>
    if s.pc t = .idle ∧ e ∈ s.held t ∧ (s.inode e).holder ≠ some t then iput s t e else none
  | .ialloc t dev inum type => if s.pc t = .idle then ialloc s t dev inum type else none
  | .next t =>
    match s.pc t with
    | .idle => none
    | .trunc e => iputTrunc s t e
    | .unlock e => some (iputUnlock s t e)
    | .put e => some (iputEnd s t e)
    | .alloc dev inum => iget { s with pc := Function.update s.pc t .idle } t dev inum

end Calls

/-- After boot: the disks as they are, `itable` zeroed, no thread in a call. -/
def init (d : ℕ → Disk) : Sys τ where
  disk := d
  inode _ := ⟨0, 0, 0, none, false, ⟨.free, 0, 0, 0, fun _ => 0⟩⟩
  held _ := []
  pc _ := .idle

/-! ### Reading the updates -/

section Updates

@[simp] theorem Sys.set_inode_self (s : Sys τ) (e : Fin ninode) (ip : Inode τ) :
    (s.set e ip).inode e = ip := Function.update_self ..

@[simp] theorem Sys.set_inode_ne (s : Sys τ) {e k : Fin ninode} (ip : Inode τ) (h : k ≠ e) :
    (s.set e ip).inode k = s.inode k := Function.update_of_ne h ..

@[simp] theorem Sys.set_disk (s : Sys τ) (e : Fin ninode) (ip : Inode τ) :
    (s.set e ip).disk = s.disk := rfl

@[simp] theorem Sys.set_held (s : Sys τ) (e : Fin ninode) (ip : Inode τ) :
    (s.set e ip).held = s.held := rfl

@[simp] theorem Sys.set_pc (s : Sys τ) (e : Fin ninode) (ip : Inode τ) :
    (s.set e ip).pc = s.pc := rfl

/-- Device `dev`'s disk replaced by one that differs from it at most at inode `inum`, with inode
`inum` written back: every other disk inode is as it was. -/
theorem inode_update_setInode {disks : ℕ → Disk} {dev inum : ℕ} {d : Disk}
    (hd : ∀ i, i ≠ inum → d.inode i = (disks dev).inode i) (din : Dinode) (dev' inum' : ℕ) :
    ((Function.update disks dev (d.setInode inum din)) dev').inode inum' =
      if dev' = dev ∧ inum' = inum then din else (disks dev').inode inum' := by
  by_cases hdev : dev' = dev
  · subst hdev
    by_cases hi : inum' = inum
    · simp [hi]
    · simp [hi, hd inum' hi]
  · simp [hdev]

/-- Writing disk inode `inum` of `dev` changes no other disk inode. -/
@[simp] theorem Sys.write_inode (s : Sys τ) (dev inum : ℕ) (din : Dinode) (dev' inum' : ℕ) :
    ((s.write dev inum din).disk dev').inode inum' =
      if dev' = dev ∧ inum' = inum then din else (s.disk dev').inode inum' :=
  inode_update_setInode (fun _ _ => rfl) din dev' inum'

@[simp] theorem Sys.write_inode_entry (s : Sys τ) (dev inum : ℕ) (din : Dinode) :
    (s.write dev inum din).inode = s.inode := rfl

@[simp] theorem Sys.write_held (s : Sys τ) (dev inum : ℕ) (din : Dinode) :
    (s.write dev inum din).held = s.held := rfl

@[simp] theorem Sys.write_pc (s : Sys τ) (dev inum : ℕ) (din : Dinode) :
    (s.write dev inum din).pc = s.pc := rfl

variable [DecidableEq τ]

@[simp] theorem Sys.hold_inode (s : Sys τ) (t : τ) (e : Fin ninode) :
    (s.hold t e).inode = s.inode := rfl

@[simp] theorem Sys.hold_disk (s : Sys τ) (t : τ) (e : Fin ninode) :
    (s.hold t e).disk = s.disk := rfl

@[simp] theorem Sys.hold_pc (s : Sys τ) (t : τ) (e : Fin ninode) :
    (s.hold t e).pc = s.pc := rfl

theorem Sys.mem_hold {s : Sys τ} {t u : τ} {e k : Fin ninode} (h : k ∈ s.held u) :
    k ∈ (s.hold t e).held u := by
  by_cases hu : u = t
  · subst hu
    simp [Sys.hold, h]
  · simpa [Sys.hold, Function.update_of_ne hu] using h

@[simp] theorem Sys.drop_disk (s : Sys τ) (t : τ) (e : Fin ninode) :
    (s.drop t e).disk = s.disk := rfl

@[simp] theorem Sys.drop_pc (s : Sys τ) (t : τ) (e : Fin ninode) :
    (s.drop t e).pc = s.pc := rfl

theorem Sys.drop_inode (s : Sys τ) (t : τ) (e : Fin ninode) :
    (s.drop t e).inode = (s.set e { s.inode e with ref := (s.inode e).ref - 1 }).inode := rfl

/-- What `drop` leaves of the references a thread holds: all of another thread's, and all of
its own but one copy of the entry it drops. -/
theorem Sys.mem_drop {s : Sys τ} {t u : τ} {e k : Fin ninode} (h : k ∈ s.held u)
    (hk : u = t → k ≠ e) : k ∈ (s.drop t e).held u := by
  by_cases hu : u = t
  · subst hu
    simpa [Sys.drop, List.mem_erase_of_ne (hk rfl)] using h
  · simpa [Sys.drop, Function.update_of_ne hu] using h

variable [Fintype τ]

/-- A reference taken adds one to the count of its entry. -/
theorem Sys.sum_count_hold (s : Sys τ) (t : τ) (e k : Fin ninode) :
    ∑ u, ((s.hold t e).held u).count k = ∑ u, (s.held u).count k + if e = k then 1 else 0 := by
  have h := Family.sum_update_add (fun l => l.count k) s.held t (e :: s.held t)
  simp only [List.count_cons, beq_iff_eq] at h
  simp only [Sys.hold]
  omega

/-- A reference dropped takes one from the count of its entry. -/
theorem Sys.sum_count_drop (s : Sys τ) {t : τ} {e : Fin ninode} (he : e ∈ s.held t)
    (k : Fin ninode) :
    ∑ u, ((s.drop t e).held u).count k + (if e = k then 1 else 0) = ∑ u, (s.held u).count k := by
  have h := Family.sum_update_add (fun l => l.count k) s.held t ((s.held t).erase e)
  have hpos := List.count_pos_iff.2 he
  simp only [List.count_erase, beq_iff_eq] at h
  simp only [Sys.drop]
  split_ifs at h ⊢ with hek
  · subst hek
    omega
  · omega

end Updates

/-! ### The invariant -/

section Inv

variable [Fintype τ] {s s' : Sys τ}

/-- The invariant of `itable`. -/
structure Inv (s : Sys τ) : Prop where
  /-- `ref` counts the references the threads hold. -/
  ref : ∀ e, (s.inode e).ref = ∑ t, (s.held t).count e
  /-- No two entries in use hold one inode. -/
  unique : ∀ e e', 0 < (s.inode e).ref → 0 < (s.inode e').ref →
    (s.inode e).dev = (s.inode e').dev → (s.inode e).inum = (s.inode e').inum → e = e'
  /-- A sleep-lock is held by a thread with a reference, on a valid entry. -/
  locked : ∀ e t, (s.inode e).holder = some t → e ∈ s.held t ∧ (s.inode e).valid = true
  /-- `iput` frees an inode with no links, holding its sleep-lock until it is marked invalid. -/
  trunc : ∀ t e, s.pc t = .trunc e → (s.inode e).holder = some t ∧ (s.inode e).din.nlink = 0
  unlock : ∀ t e, s.pc t = .unlock e → (s.inode e).holder = some t
  /-- `iput` keeps its reference until the end, without the sleep-lock. -/
  put : ∀ t e, s.pc t = .put e → e ∈ s.held t ∧ (s.inode e).holder ≠ some t
  /-- A valid entry in use holds its allocated disk inode, unless `iput` has just freed it. -/
  fresh : ∀ e, 0 < (s.inode e).ref → (s.inode e).valid = true →
    ((s.inode e).din = (s.disk (s.inode e).dev).inode (s.inode e).inum ∧
      (s.inode e).din.type ≠ .free) ∨ ∃ t, s.pc t = .unlock e

theorem Inv.ref_pos (hs : Inv s) {t : τ} {e : Fin ninode} (h : e ∈ s.held t) :
    0 < (s.inode e).ref := by
  rw [hs.ref e]
  exact Finset.sum_pos' (fun _ _ => Nat.zero_le _) ⟨t, Finset.mem_univ t, List.count_pos_iff.2 h⟩

/-- An entry nobody refers to is unlocked, and no `iput` is under way on it. -/
theorem Inv.unused (hs : Inv s) {e : Fin ninode} (h0 : (s.inode e).ref = 0) :
    (s.inode e).holder = none ∧ ∀ t, s.pc t ≠ .trunc e ∧ s.pc t ≠ .unlock e ∧ s.pc t ≠ .put e := by
  have hheld : ∀ t, e ∉ s.held t := fun t he => by
    have := hs.ref_pos he
    omega
  refine ⟨?_, fun t => ⟨fun ht => ?_, fun ht => ?_, fun ht => hheld t (hs.put t e ht).1⟩⟩
  · cases hh : (s.inode e).holder with
    | none => rfl
    | some t => exact absurd (hs.locked e t hh).1 (hheld t)
  · exact hheld t (hs.locked e t (hs.trunc t e ht).1).1
  · exact hheld t (hs.locked e t (hs.unlock t e ht)).1

/-- No `iput` is freeing an entry whose sleep-lock is free or held by a thread between calls. -/
theorem Inv.not_freeing (hs : Inv s) {e : Fin ninode}
    (hh : ∀ t, (s.inode e).holder = some t → s.pc t = .idle) (u : τ) :
    s.pc u ≠ .trunc e ∧ s.pc u ≠ .unlock e := by
  constructor
  · intro hu
    have := hh u (hs.trunc u e hu).1
    rw [hu] at this
    cases this
  · intro hu
    have := hh u (hs.unlock u e hu)
    rw [hu] at this
    cases this

/-- A valid entry in use that no `iput` is freeing holds its allocated disk inode. -/
theorem Inv.current (hs : Inv s) {e : Fin ninode} (hpos : 0 < (s.inode e).ref)
    (hv : (s.inode e).valid = true) (hno : ∀ u, s.pc u ≠ .unlock e) :
    (s.inode e).din = (s.disk (s.inode e).dev).inode (s.inode e).inum ∧
      (s.inode e).din.type ≠ .free :=
  (hs.fresh e hpos hv).resolve_right fun ⟨u, hu⟩ => hno u hu

/-- A change of counts and references alone, which takes no reference a lock or an `iput`
needs, keeps the invariant. -/
theorem Inv.congr_ref (hs : Inv s) (hdisk : s'.disk = s.disk) (hpc : s'.pc = s.pc)
    (hinode : ∀ k, s'.inode k = { s.inode k with ref := (s'.inode k).ref })
    (href : ∀ k, (s'.inode k).ref = ∑ t, (s'.held t).count k)
    (hpos : ∀ k, 0 < (s'.inode k).ref → 0 < (s.inode k).ref)
    (hheld : ∀ t k, k ∈ s.held t → (s.inode k).holder = some t ∨ s.pc t = .put k →
      k ∈ s'.held t) : Inv s' := by
  have hfield : ∀ k, (s'.inode k).dev = (s.inode k).dev ∧ (s'.inode k).inum = (s.inode k).inum ∧
      (s'.inode k).holder = (s.inode k).holder ∧ (s'.inode k).valid = (s.inode k).valid ∧
      (s'.inode k).din = (s.inode k).din := fun k => by
    rw [hinode k]
    exact ⟨rfl, rfl, rfl, rfl, rfl⟩
  refine ⟨href, fun k k' hk hk' hd hi => ?_, fun k t hh => ?_, fun t k ht => ?_,
    fun t k ht => ?_, fun t k ht => ?_, fun k hk hv => ?_⟩
  · rw [(hfield k).1, (hfield k').1] at hd
    rw [(hfield k).2.1, (hfield k').2.1] at hi
    exact hs.unique k k' (hpos k hk) (hpos k' hk') hd hi
  · rw [(hfield k).2.2.1] at hh
    obtain ⟨hm, hv⟩ := hs.locked k t hh
    exact ⟨hheld t k hm (.inl hh), (hfield k).2.2.2.1 ▸ hv⟩
  · rw [hpc] at ht
    rw [(hfield k).2.2.1, (hfield k).2.2.2.2]
    exact hs.trunc t k ht
  · rw [hpc] at ht
    rw [(hfield k).2.2.1]
    exact hs.unlock t k ht
  · rw [hpc] at ht
    obtain ⟨hm, hh⟩ := hs.put t k ht
    exact ⟨hheld t k hm (.inr ht), (hfield k).2.2.1 ▸ hh⟩
  · rw [(hfield k).2.2.2.1] at hv
    rw [(hfield k).1, (hfield k).2.1, (hfield k).2.2.2.2, hdisk, hpc]
    exact hs.fresh k (hpos k hk) hv

/-- A change to one entry that keeps its count and its inode, with a write of the disk that no
other entry in use sees, keeps the invariant when the new entry keeps each promise the invariant
makes about it. -/
theorem Inv.set (hs : Inv s) {e : Fin ninode} {ip : Inode τ} {dk : ℕ → Disk}
    (hdk : ∀ k, k ≠ e → 0 < (s.inode k).ref →
      (dk (s.inode k).dev).inode (s.inode k).inum = (s.disk (s.inode k).dev).inode (s.inode k).inum)
    (href : ip.ref = (s.inode e).ref)
    (hdev : ip.dev = (s.inode e).dev) (hinum : ip.inum = (s.inode e).inum)
    (hlocked : ∀ t, ip.holder = some t → e ∈ s.held t ∧ ip.valid = true)
    (htrunc : ∀ t, s.pc t = .trunc e → ip.holder = some t ∧ ip.din.nlink = 0)
    (hunlock : ∀ t, s.pc t = .unlock e → ip.holder = some t)
    (hput : ∀ t, s.pc t = .put e → ip.holder ≠ some t)
    (hfresh : 0 < ip.ref → ip.valid = true →
      (ip.din = (dk ip.dev).inode ip.inum ∧ ip.din.type ≠ .free) ∨ ∃ t, s.pc t = .unlock e) :
    Inv { s.set e ip with disk := dk } := by
  -- the fields of the invariant that mention entry `e` alone are the hypotheses
  refine ⟨fun k => ?_, fun k k' hk hk' hd hi => ?_, fun k t hh => ?_, fun t k ht => ?_,
    fun t k ht => ?_, fun t k ht => ?_, fun k hk hv => ?_⟩
  · rcases eq_or_ne k e with rfl | hke
    · simpa [href] using hs.ref k
    · simpa [hke] using hs.ref k
  · have hsame : ∀ j, 0 < ((s.set e ip).inode j).ref → 0 < (s.inode j).ref ∧
        ((s.set e ip).inode j).dev = (s.inode j).dev ∧
        ((s.set e ip).inode j).inum = (s.inode j).inum := fun j hj => by
      rcases eq_or_ne j e with rfl | hje
      · rw [Sys.set_inode_self] at hj ⊢
        exact ⟨href ▸ hj, hdev, hinum⟩
      · rw [Sys.set_inode_ne _ _ hje] at hj ⊢
        exact ⟨hj, rfl, rfl⟩
    obtain ⟨hk, hdk, hik⟩ := hsame k hk
    obtain ⟨hk', hdk', hik'⟩ := hsame k' hk'
    exact hs.unique k k' hk hk' (hdk ▸ hdk' ▸ hd) (hik ▸ hik' ▸ hi)
  · rcases eq_or_ne k e with rfl | hke
    · simp only [Sys.set_inode_self] at hh ⊢
      exact hlocked t hh
    · simp only [Sys.set_inode_ne _ _ hke] at hh ⊢
      exact hs.locked k t hh
  · rcases eq_or_ne k e with rfl | hke
    · simpa using htrunc t ht
    · simpa [hke] using hs.trunc t k ht
  · rcases eq_or_ne k e with rfl | hke
    · simpa using hunlock t ht
    · simpa [hke] using hs.unlock t k ht
  · rcases eq_or_ne k e with rfl | hke
    · simpa using ⟨(hs.put t k ht).1, hput t ht⟩
    · simpa [hke] using hs.put t k ht
  · rcases eq_or_ne k e with rfl | hke
    · simp only [Sys.set_inode_self, Sys.set_pc] at hk hv ⊢
      exact hfresh hk hv
    · simp only [Sys.set_inode_ne _ _ hke, Sys.set_pc] at hk hv ⊢
      rw [hdk k hke hk]
      exact hs.fresh k hk hv

end Inv

/-! ### One lemma per call -/

section Step

variable [DecidableEq τ] [Fintype τ] {s s' : Sys τ}

/-- One more reference to an entry in use: `iget` finding its inode, and `idup`. -/
theorem Inv.take (hs : Inv s) {t : τ} {e : Fin ninode} (hpos : 0 < (s.inode e).ref) :
    Inv ((s.set e { s.inode e with ref := (s.inode e).ref + 1 }).hold t e) := by
  refine hs.congr_ref rfl rfl (fun k => ?_) (fun k => ?_) (fun k hk => ?_)
    fun u k hk _ => Sys.mem_hold hk
  · rcases eq_or_ne k e with rfl | hke <;> simp [*]
  · rw [Sys.sum_count_hold, Sys.hold_inode, Sys.set_held, ← hs.ref k]
    rcases eq_or_ne k e with rfl | hke
    · simp
    · simp [hke, Ne.symm hke]
  · rcases eq_or_ne k e with rfl | hke
    · exact hpos
    · simpa [hke] using hk

/-- A reference dropped that neither a sleep-lock nor an `iput` of the thread needs. -/
theorem Inv.drop (hs : Inv s) {t : τ} {e : Fin ninode} (he : e ∈ s.held t)
    (hh : (s.inode e).holder ≠ some t) (hpc : s.pc t ≠ .put e) : Inv (s.drop t e) := by
  refine hs.congr_ref rfl rfl (fun k => ?_) (fun k => ?_) (fun k hk => ?_)
    fun u k hk hwhy => Sys.mem_drop hk fun hu hke => ?_
  · rcases eq_or_ne k e with rfl | hke <;> simp [Sys.drop_inode, *]
  · have hsum := Sys.sum_count_drop s he k
    rw [Sys.drop_inode, ← hs.ref k] at *
    rcases eq_or_ne k e with rfl | hke
    · have := hs.ref_pos he
      simp only [Sys.set_inode_self, if_true] at hsum ⊢
      omega
    · simp only [Sys.set_inode_ne _ _ hke, if_neg (Ne.symm hke), Nat.add_zero] at hsum ⊢
      exact hsum.symm
  · rcases eq_or_ne k e with rfl | hke
    · exact hs.ref_pos he
    · simpa [Sys.drop_inode, hke] using hk
  · subst hu hke
    rcases hwhy with hwhy | hwhy
    · exact hh hwhy
    · exact hpc hwhy

/-- A thread not at the end of freeing an inode moves on in its calls to a point whose
promises hold. -/
theorem Inv.setPc (hs : Inv s) {t : τ} {x : Pc} (ht : ∀ k, s.pc t ≠ .unlock k)
    (htrunc : ∀ e, x = .trunc e → (s.inode e).holder = some t ∧ (s.inode e).din.nlink = 0)
    (hunlock : ∀ e, x = .unlock e → (s.inode e).holder = some t)
    (hput : ∀ e, x = .put e → e ∈ s.held t ∧ (s.inode e).holder ≠ some t) :
    Inv { s with pc := Function.update s.pc t x } := by
  -- each field about a thread's place reads `x` for `t` and the old place for the others
  have hpc : ∀ u, Function.update s.pc t x u = if u = t then x else s.pc u := fun u => by
    rcases eq_or_ne u t with rfl | hut
    · simp
    · simp [hut]
  refine ⟨hs.ref, hs.unique, hs.locked, fun u k hu => ?_, fun u k hu => ?_, fun u k hu => ?_,
    fun k hk hv => ?_⟩
  · simp only [hpc] at hu
    split_ifs at hu with hut
    · subst hut
      exact htrunc k hu
    · exact hs.trunc u k hu
  · simp only [hpc] at hu
    split_ifs at hu with hut
    · subst hut
      exact hunlock k hu
    · exact hs.unlock u k hu
  · simp only [hpc] at hu
    split_ifs at hu with hut
    · subst hut
      exact hput k hu
    · exact hs.put u k hu
  · rcases hs.fresh k hk hv with h | ⟨u, hu⟩
    · exact .inl h
    · have hut : u ≠ t := by
        rintro rfl
        exact ht k hu
      refine .inr ⟨u, ?_⟩
      show Function.update s.pc t x u = _
      rw [Function.update_of_ne hut]
      exact hu

/-- `iget` recycling an unused entry for an inode no entry in use holds. -/
theorem Inv.recycle (hs : Inv s) {t : τ} {e : Fin ninode} {dev inum : ℕ}
    (h0 : (s.inode e).ref = 0)
    (hnew : ∀ k, 0 < (s.inode k).ref → (s.inode k).dev = dev → (s.inode k).inum = inum → False) :
    Inv ((s.set e { s.inode e with dev := dev, inum := inum, ref := 1, valid := false }).hold t e) := by
  obtain ⟨hfree, hidle⟩ := hs.unused h0
  refine ⟨fun k => ?_, fun k k' hk hk' hd hi => ?_, fun k u hh => ?_, fun u k hu => ?_,
    fun u k hu => ?_, fun u k hu => ?_, fun k hk hv => ?_⟩
  · rw [Sys.sum_count_hold, Sys.set_held, ← hs.ref k]
    rcases eq_or_ne k e with rfl | hke
    · simp [h0]
    · simp [hke, Ne.symm hke]
  · rcases eq_or_ne k e with rfl | hke <;> rcases eq_or_ne k' k with rfl | hk'k
    · rfl
    · simp only [Sys.hold_inode, Sys.set_inode_self, Sys.set_inode_ne _ _ hk'k] at hk' hd hi
      exact (hnew k' hk' hd.symm hi.symm).elim
    · rfl
    · rcases eq_or_ne k' e with rfl | hk'e
      · simp only [Sys.hold_inode, Sys.set_inode_self, Sys.set_inode_ne _ _ hke] at hk hd hi
        exact (hnew k hk hd hi).elim
      · simp only [Sys.hold_inode, Sys.set_inode_ne _ _ hke, Sys.set_inode_ne _ _ hk'e] at hk hk' hd hi
        exact hs.unique k k' hk hk' hd hi
  · rcases eq_or_ne k e with rfl | hke
    · simp [hfree] at hh
    · simp only [Sys.hold_inode, Sys.set_inode_ne _ _ hke] at hh ⊢
      exact ⟨Sys.mem_hold (hs.locked k u hh).1, (hs.locked k u hh).2⟩
  · rcases eq_or_ne k e with rfl | hke
    · exact absurd hu (hidle u).1
    · simpa [hke] using hs.trunc u k hu
  · rcases eq_or_ne k e with rfl | hke
    · exact absurd hu (hidle u).2.1
    · simpa [hke] using hs.unlock u k hu
  · rcases eq_or_ne k e with rfl | hke
    · exact absurd hu (hidle u).2.2
    · simp only [Sys.hold_inode, Sys.set_inode_ne _ _ hke]
      exact ⟨Sys.mem_hold (hs.put u k hu).1, (hs.put u k hu).2⟩
  · rcases eq_or_ne k e with rfl | hke
    · simp at hv
    · simp only [Sys.hold_inode, Sys.hold_disk, Sys.hold_pc, Sys.set_inode_ne _ _ hke, Sys.set_disk,
        Sys.set_pc] at hk hv ⊢
      exact hs.fresh k hk hv

theorem Inv.iget (hs : Inv s) {t : τ} {dev inum : ℕ} (h : iget s t dev inum = some s') : Inv s' := by
  unfold Itable.iget at h
  split at h
  · rename_i e he
    cases h
    have hpos := List.find?_some he
    rw [decide_eq_true_eq] at hpos
    exact hs.take hpos.1
  · rename_i hnone
    split at h
    · rename_i e he
      cases h
      have h0 := List.find?_some he
      rw [decide_eq_true_eq] at h0
      refine hs.recycle h0 fun k hk hd hi => ?_
      rw [List.find?_eq_none] at hnone
      exact absurd (decide_eq_true ⟨hk, hd, hi⟩) (hnone k (List.mem_finRange k))
    · cases h

omit [DecidableEq τ] in
/-- A thread between calls takes the free sleep-lock of a valid entry it holds. -/
theorem Inv.lock (hs : Inv s) {t : τ} {e : Fin ninode} (hidle : s.pc t = .idle)
    (hmem : e ∈ s.held t) (hnone : (s.inode e).holder = none) (hv : (s.inode e).valid = true) :
    Inv (s.set e { s.inode e with holder := some t }) := by
  -- the lock is free, so no `iput` is freeing the entry
  have hfree := hs.not_freeing (e := e) fun u hu => by
    rw [hnone] at hu
    cases hu
  refine hs.set (fun _ _ _ => rfl) rfl rfl rfl (fun u hu => ⟨?_, hv⟩)
    (fun u hu => absurd hu (hfree u).1) (fun u hu => absurd hu (hfree u).2) (fun u hu htu => ?_)
    fun hpos _ => .inl (hs.current hpos hv fun u => (hfree u).2)
  · cases hu
    exact hmem
  · cases htu
    rw [hidle] at hu
    cases hu

omit [DecidableEq τ] in
/-- `ilock` takes a free sleep-lock, and a read of the disk makes the entry current. -/
theorem Inv.ilock (hs : Inv s) {t : τ} {e : Fin ninode} (hidle : s.pc t = .idle)
    (hmem : e ∈ s.held t) (h : ilock s t e = some s') : Inv s' := by
  dsimp only [Itable.ilock] at h
  split_ifs at h with hbusy hv htype
  · have hnone : (s.inode e).holder = none := by
      by_contra hne
      exact hbusy (.inr hne)
    cases h
    exact hs.lock hidle hmem hnone hv
  · have hnone : (s.inode e).holder = none := by
      by_contra hne
      exact hbusy (.inr hne)
    have hfree := hs.not_freeing (e := e) fun u hu => by
      rw [hnone] at hu
      cases hu
    cases h
    refine hs.set (fun _ _ _ => rfl) rfl rfl rfl (fun u hu => ⟨?_, rfl⟩)
      (fun u hu => absurd hu (hfree u).1) (fun u hu => absurd hu (hfree u).2) (fun u hu htu => ?_)
      fun _ _ => .inl ⟨rfl, htype⟩
    · cases hu
      exact hmem
    · cases htu
      rw [hidle] at hu
      cases hu

/-- `iunlock` by the holder of the sleep-lock. -/
theorem Inv.iunlock (hs : Inv s) {t : τ} {e : Fin ninode} (hidle : s.pc t = .idle)
    (h : iunlock s t e = some s') : Inv s' := by
  dsimp only [Itable.iunlock] at h
  split_ifs at h with hbad
  have hh : (s.inode e).holder = some t := by
    by_contra hne
    exact hbad (.inl hne)
  -- the holder is between calls, so no `iput` is freeing the entry
  have hfree := hs.not_freeing (e := e) fun u hu => by
    rw [hh] at hu
    cases hu
    exact hidle
  cases h
  exact hs.set (fun _ _ _ => rfl) rfl rfl rfl (fun u hu => by cases hu)
    (fun u hu => absurd hu (hfree u).1) (fun u hu => absurd hu (hfree u).2)
    (fun u _ hu => by cases hu) fun hpos hv => hs.fresh e hpos hv

omit [DecidableEq τ] [Fintype τ] in
theorem iupdate_eq (s : Sys τ) (e : Fin ninode) (din : Dinode) :
    iupdate s e din = { s.set e { s.inode e with din := din } with
      disk := (s.write (s.inode e).dev (s.inode e).inum din).disk } := rfl

omit [DecidableEq τ] in
/-- `iupdate` by the holder of the sleep-lock writes a disk inode that only its entry holds. -/
theorem Inv.iupdate (hs : Inv s) {t : τ} {e : Fin ninode} {din : Dinode}
    (hidle : s.pc t = .idle) (hh : (s.inode e).holder = some t)
    (htype : din.type = (s.inode e).din.type) : Inv (iupdate s e din) := by
  have hfree := hs.not_freeing (e := e) fun u hu => by
    rw [hh] at hu
    cases hu
    exact hidle
  obtain ⟨hmem, hv⟩ := hs.locked e t hh
  have hpos := hs.ref_pos hmem
  have hcur := hs.current hpos hv fun u => (hfree u).2
  rw [iupdate_eq]
  refine hs.set (fun k hke hk => ?_) rfl rfl rfl (fun u hu => hs.locked e u hu)
    (fun u hu => absurd hu (hfree u).1) (fun u hu => absurd hu (hfree u).2)
    (fun u hu => (hs.put u e hu).2) fun _ _ => .inl ⟨by simp, ?_⟩
  · -- no other entry in use holds the inode written
    rw [Sys.write_inode, if_neg]
    rintro ⟨hd, hi⟩
    exact hke (hs.unique k e hk hpos hd hi)
  · rw [← htype] at hcur
    exact hcur.2

/-- `iput` on a reference held without the sleep-lock: the last reference to a valid inode with
no links takes the lock and goes on to free it, any other is dropped. -/
theorem Inv.iput (hs : Inv s) {t : τ} {e : Fin ninode} (hidle : s.pc t = .idle)
    (hmem : e ∈ s.held t) (hh : (s.inode e).holder ≠ some t) (h : iput s t e = some s') :
    Inv s' := by
  dsimp only [Itable.iput] at h
  split_ifs at h with hlast hnone
  · cases h
    obtain ⟨-, hv, hn⟩ := hlast
    -- the sleep-lock first, as `ilock` takes it, then the step into the window
    refine (hs.lock hidle hmem hnone hv).setPc (fun k => by simp [hidle]) (fun k hk => ?_)
      (fun k hk => by cases hk) (fun k hk => by cases hk)
    cases hk
    exact ⟨by simp, by simpa using hn⟩
  · cases h
    exact hs.drop hmem hh (by simp [hidle])

/-- `itrunc` and the write of `type = 0`: the thread moves on to clear the entry, and only the
entry's disk inode changes. -/
theorem Inv.iputTrunc (hs : Inv s) {t : τ} {e : Fin ninode} (hpc : s.pc t = .trunc e)
    (h : iputTrunc s t e = some s') : Inv s' := by
  obtain ⟨hh, -⟩ := hs.trunc t e hpc
  have hpos := hs.ref_pos (hs.locked e t hh).1
  dsimp only [Itable.iputTrunc] at h
  split at h
  · rename_i d hd
    cases h
    -- first the thread's place, then the entry and its disk inode
    have hnext : Inv { s with pc := Function.update s.pc t (.unlock e) } :=
      hs.setPc (fun k => by simp [hpc]) (fun k hk => by cases hk) (fun k hk => by cases hk; exact hh)
        (fun k hk => by cases hk)
    have hdisk := @inode_update_setInode s.disk (s.inode e).dev (s.inode e).inum d
      (fun i hi => by rw [(itrunc_frame hd).1, Function.update_of_ne hi])
      { d.inode (s.inode e).inum with type := .free }
    refine hnext.set (fun k hke hk => ?_) rfl rfl rfl (fun u hu => hnext.locked e u hu)
      (fun u hu => ?_) (fun u hu => hnext.unlock u e hu) (fun u hu => (hnext.put u e hu).2)
      fun _ _ => .inr ⟨t, by simp⟩
    · rw [hdisk, if_neg]
      rintro ⟨hd, hi⟩
      exact hke (hs.unique k e hk hpos hd hi)
    · -- only `t` holds the entry's lock, and it has moved on
      obtain rfl : u = t := Option.some.inj ((hnext.trunc u e hu).1.symm.trans hh)
      simp at hu
  · cases h

/-- `iput` clears the freed entry and releases its sleep-lock. -/
theorem Inv.iputUnlock (hs : Inv s) {t : τ} {e : Fin ninode} (hpc : s.pc t = .unlock e) :
    Inv (iputUnlock s t e) := by
  have hh := hs.unlock t e hpc
  have hmem := (hs.locked e t hh).1
  -- no other thread is freeing the entry: it would hold the lock
  have hother : ∀ u k, s.pc u = .trunc k ∨ s.pc u = .unlock k → u ≠ t → k ≠ e := by
    rintro u k (hu | hu) hut rfl
    · exact hut (Option.some.inj ((hs.trunc u k hu).1.symm.trans hh))
    · exact hut (Option.some.inj ((hs.unlock u k hu).symm.trans hh))
  have hpc' : ∀ u, (Itable.iputUnlock s t e).pc u = if u = t then .put e else s.pc u := fun u => by
    rcases eq_or_ne u t with rfl | hut
    · simp [Itable.iputUnlock]
    · simp [Itable.iputUnlock, hut]
  have hinode : ∀ k, k ≠ e → (Itable.iputUnlock s t e).inode k = s.inode k := fun k hke => by
    simp [Itable.iputUnlock, hke]
  refine ⟨fun k => ?_, fun k k' hk hk' hd hi => ?_, fun k u hu => ?_, fun u k hu => ?_,
    fun u k hu => ?_, fun u k hu => ?_, fun k hk hv => ?_⟩
  · rcases eq_or_ne k e with rfl | hke
    · simpa [Itable.iputUnlock] using hs.ref k
    · rw [hinode k hke]
      exact hs.ref k
  · have hsame : ∀ j, ((Itable.iputUnlock s t e).inode j).ref = (s.inode j).ref ∧
        ((Itable.iputUnlock s t e).inode j).dev = (s.inode j).dev ∧
        ((Itable.iputUnlock s t e).inode j).inum = (s.inode j).inum := fun j => by
      rcases eq_or_ne j e with rfl | hje
      · simp [Itable.iputUnlock]
      · rw [hinode j hje]
        exact ⟨rfl, rfl, rfl⟩
    rw [(hsame k).1] at hk
    rw [(hsame k').1] at hk'
    rw [(hsame k).2.1, (hsame k').2.1] at hd
    rw [(hsame k).2.2, (hsame k').2.2] at hi
    exact hs.unique k k' hk hk' hd hi
  · rcases eq_or_ne k e with rfl | hke
    · simp [Itable.iputUnlock] at hu
    · rw [hinode k hke] at hu ⊢
      exact hs.locked k u hu
  · -- `t` has moved on to `put`
    rw [hpc'] at hu
    split_ifs at hu with hut
    rw [hinode k (hother u k (.inl hu) hut)]
    exact hs.trunc u k hu
  · rw [hpc'] at hu
    split_ifs at hu with hut
    rw [hinode k (hother u k (.inr hu) hut)]
    exact hs.unlock u k hu
  · rw [hpc'] at hu
    split_ifs at hu with hut
    · cases hu
      subst hut
      simp [Itable.iputUnlock, hmem]
    · rcases eq_or_ne k e with rfl | hke
      · simp [Itable.iputUnlock, (hs.put u k hu).1]
      · rw [hinode k hke]
        exact hs.put u k hu
  · rcases eq_or_ne k e with rfl | hke
    · simp [Itable.iputUnlock] at hv
    · rw [hinode k hke] at hk hv ⊢
      rcases hs.fresh k hk hv with hcur | ⟨u, hu⟩
      · exact .inl hcur
      · have hut : u ≠ t := fun hut => by
          rw [hut, hpc] at hu
          exact hke (Pc.unlock.inj hu).symm
        exact .inr ⟨u, by rw [hpc', if_neg hut]; exact hu⟩

/-- The end of `iput`: the reference is dropped, the lock already released. -/
theorem Inv.iputEnd (hs : Inv s) {t : τ} {e : Fin ninode} (hpc : s.pc t = .put e) :
    Inv (iputEnd s t e) := by
  obtain ⟨hmem, hh⟩ := hs.put t e hpc
  have hidle : Inv { s with pc := Function.update s.pc t .idle } :=
    hs.setPc (fun k => by simp [hpc]) (fun _ h => by cases h) (fun _ h => by cases h)
      (fun _ h => by cases h)
  exact hidle.drop hmem hh (by simp)

/-- `ialloc` writes a free disk inode, which no current entry holds. -/
theorem Inv.ialloc (hs : Inv s) {t : τ} {dev inum : ℕ} {type : IType} (hidle : s.pc t = .idle)
    (h : ialloc s t dev inum type = some s') : Inv s' := by
  dsimp only [Itable.ialloc] at h
  split_ifs at h with hfree
  cases h
  -- a valid entry in use holding the inode written is one an `iput` has just freed
  have hwrite : Inv (s.write dev inum ⟨type, 0, 0, 0, fun _ => 0⟩) := by
    refine ⟨hs.ref, hs.unique, hs.locked, hs.trunc, hs.unlock, hs.put, fun k hk hv => ?_⟩
    rcases hs.fresh k hk hv with ⟨hdin, htype⟩ | hu
    · refine .inl ⟨?_, htype⟩
      rw [Sys.write_inode_entry, Sys.write_inode, if_neg]
      · exact hdin
      · rintro ⟨rfl, rfl⟩
        rw [hdin] at htype
        exact htype hfree.2.2
    · exact .inr hu
  exact hwrite.setPc (fun k => by simp [hidle]) (fun _ h => by cases h) (fun _ h => by cases h)
    (fun _ h => by cases h)

theorem inv_step {a : Action τ} (hs : Inv s) (h : step s a = some s') : Inv s' := by
  cases a with
  | iget t dev inum =>
    simp only [step] at h
    split_ifs at h
    exact hs.iget h
  | idup t e =>
    simp only [step] at h
    split_ifs at h with hc
    cases h
    exact hs.take (hs.ref_pos hc.2)
  | ilock t e =>
    simp only [step] at h
    split_ifs at h with hc
    exact hs.ilock hc.1 hc.2 h
  | iunlock t e =>
    simp only [step] at h
    split_ifs at h with hc
    exact hs.iunlock hc h
  | iupdate t e din =>
    simp only [step] at h
    split_ifs at h with hc
    cases h
    exact hs.iupdate hc.1 hc.2.1 hc.2.2
  | iput t e =>
    simp only [step] at h
    split_ifs at h with hc
    exact hs.iput hc.1 hc.2.1 hc.2.2 h
  | ialloc t dev inum type =>
    simp only [step] at h
    split_ifs at h with hc
    exact hs.ialloc hc h
  | next t =>
    simp only [step] at h
    split at h
    · cases h
    · rename_i e hpc
      exact hs.iputTrunc hpc h
    · rename_i e hpc
      cases h
      exact hs.iputUnlock hpc
    · rename_i e hpc
      cases h
      exact hs.iputEnd hpc
    · rename_i dev inum hpc
      -- `ialloc`'s `iget`, from between calls
      have hidle : Inv { s with pc := Function.update s.pc t .idle } :=
        hs.setPc (fun k => by simp [hpc]) (fun _ h => by cases h) (fun _ h => by cases h)
          (fun _ h => by cases h)
      exact hidle.iget h

end Step

theorem inv_init [Fintype τ] (d : ℕ → Disk) : Inv (init d : Sys τ) where
  ref _ := by simp [init]
  unique _ _ h := by simp [init] at h
  locked _ _ h := by simp [init] at h
  trunc _ _ h := by simp [init] at h
  unlock _ _ h := by simp [init] at h
  put _ _ h := by simp [init] at h
  fresh _ h := by simp [init] at h

theorem inv_of_reachable [DecidableEq τ] [Fintype τ] {d : ℕ → Disk} {s : Sys τ}
    (hs : Steps.Reachable step (init d) s) : Inv s :=
  Steps.Reachable.inv (inv_init d) (fun _ _ _ hi h => inv_step hi h) hs

/-! ### What the steps do to the disks and to `iput`'s window -/

section Effects

variable [DecidableEq τ] {s s' : Sys τ}

theorem iget_frame {t : τ} {dev inum : ℕ} (h : iget s t dev inum = some s') :
    s'.disk = s.disk ∧ s'.pc = s.pc := by
  unfold Itable.iget at h
  split at h
  · cases h
    exact ⟨rfl, rfl⟩
  · split at h
    · cases h
      exact ⟨rfl, rfl⟩
    · cases h

omit [DecidableEq τ] in
theorem ilock_frame {t : τ} {e : Fin ninode} (h : ilock s t e = some s') :
    s'.disk = s.disk ∧ s'.pc = s.pc := by
  dsimp only [Itable.ilock] at h
  split_ifs at h <;> cases h <;> exact ⟨rfl, rfl⟩

theorem iunlock_frame {t : τ} {e : Fin ninode} (h : iunlock s t e = some s') :
    s'.disk = s.disk ∧ s'.pc = s.pc := by
  dsimp only [Itable.iunlock] at h
  split_ifs at h
  cases h
  exact ⟨rfl, rfl⟩

/-- `iput` writes no disk; it either drops the reference or enters the window on the last
reference to a valid inode with no links. -/
theorem iput_frame {t : τ} {e : Fin ninode} (h : iput s t e = some s') :
    s'.disk = s.disk ∧ (s'.pc = s.pc ∨ (s.inode e).ref = 1 ∧ (s.inode e).valid = true ∧
      (s.inode e).din.nlink = 0 ∧ s'.pc = Function.update s.pc t (.trunc e)) := by
  dsimp only [Itable.iput] at h
  split_ifs at h with hlast
  · cases h
    exact ⟨rfl, .inr ⟨hlast.1, hlast.2.1, hlast.2.2, rfl⟩⟩
  · cases h
    exact ⟨rfl, .inl rfl⟩

/-- A thread moved to a point other than the window leaves every thread in the window as it
was. -/
theorem trunc_of_update {pc : τ → Pc} {u t : τ} {x : Pc} {e : Fin ninode}
    (hx : ∀ k, x ≠ .trunc k) (ha : Function.update pc u x t = .trunc e) : pc t = .trunc e := by
  rcases eq_or_ne t u with rfl | htu
  · rw [Function.update_self] at ha
    exact absurd ha (hx e)
  · rwa [Function.update_of_ne htu] at ha

/-- `iput`'s window is entered only by `iput` itself, on the last reference to a valid inode
with no links. -/
theorem trunc_of_step {a : Action τ} (h : step s a = some s') {t : τ} {e : Fin ninode}
    (hb : s.pc t ≠ .trunc e) (ha : s'.pc t = .trunc e) :
    a = .iput t e ∧ (s.inode e).ref = 1 ∧ (s.inode e).valid = true ∧
      (s.inode e).din.nlink = 0 := by
  -- a step that leaves every thread's place alone enters nothing
  have hsame : s'.pc = s.pc → False := fun hpc => hb (hpc ▸ ha)
  cases a with
  | iget u dev inum =>
    simp only [step] at h
    split_ifs at h
    exact (hsame (iget_frame h).2).elim
  | idup u k =>
    simp only [step] at h
    split_ifs at h
    cases h
    exact (hsame rfl).elim
  | ilock u k =>
    simp only [step] at h
    split_ifs at h
    exact (hsame (ilock_frame h).2).elim
  | iunlock u k =>
    simp only [step] at h
    split_ifs at h
    exact (hsame (iunlock_frame h).2).elim
  | iupdate u k din =>
    simp only [step] at h
    split_ifs at h
    cases h
    exact (hsame rfl).elim
  | iput u k =>
    simp only [step] at h
    split_ifs at h
    rcases (iput_frame h).2 with hpc | ⟨h1, hv, hn, hpc⟩
    · exact (hsame hpc).elim
    · rw [hpc] at ha
      rcases eq_or_ne t u with rfl | htu
      · rw [Function.update_self] at ha
        cases ha
        exact ⟨rfl, h1, hv, hn⟩
      · rw [Function.update_of_ne htu] at ha
        exact (hb ha).elim
  | ialloc u dev inum type =>
    simp only [step] at h
    split_ifs at h
    dsimp only [Itable.ialloc] at h
    split_ifs at h
    cases h
    exact (hb (trunc_of_update (fun _ h => by cases h) ha)).elim
  | next u =>
    simp only [step] at h
    split at h
    · cases h
    · dsimp only [Itable.iputTrunc] at h
      split at h
      · cases h
        exact (hb (trunc_of_update (fun _ h => by cases h) ha)).elim
      · cases h
    · cases h
      exact (hb (trunc_of_update (fun _ h => by cases h) ha)).elim
    · cases h
      exact (hb (trunc_of_update (fun _ h => by cases h) ha)).elim
    · rw [(iget_frame h).2] at ha
      exact (hb (trunc_of_update (fun _ h => by cases h) ha)).elim

variable [Fintype τ]

omit [DecidableEq τ] in
/-- The entry whose sleep-lock a thread between calls holds is current. -/
theorem Inv.current_of_holder (hs : Inv s) {t : τ} {e : Fin ninode}
    (hh : (s.inode e).holder = some t) (hidle : s.pc t = .idle) :
    (s.inode e).din = (s.disk (s.inode e).dev).inode (s.inode e).inum ∧
      (s.inode e).din.type ≠ .free := by
  have hfree := hs.not_freeing (e := e) fun u hu => by
    rw [hh] at hu
    cases hu
    exact hidle
  obtain ⟨hmem, hv⟩ := hs.locked e t hh
  exact hs.current (hs.ref_pos hmem) hv fun u => (hfree u).2

/-- Only `iput`'s `itrunc` step marks an allocated disk inode free, on the entry whose lock it
holds, valid and with no links. -/
theorem Inv.freed_by_iput (hs : Inv s) {a : Action τ} (h : step s a = some s') {dev inum : ℕ}
    (hb : ((s.disk dev).inode inum).type ≠ .free) (ha : ((s'.disk dev).inode inum).type = .free) :
    ∃ t e, a = .next t ∧ s.pc t = .trunc e ∧ (s.inode e).dev = dev ∧ (s.inode e).inum = inum ∧
      (s.inode e).holder = some t ∧ (s.inode e).valid = true ∧ (s.inode e).din.nlink = 0 := by
  -- a step that leaves the disks alone marks nothing free
  have hsame : s'.disk = s.disk → False := fun hd => hb (hd ▸ ha)
  cases a with
  | iget u dev' inum' =>
    simp only [step] at h
    split_ifs at h
    exact (hsame (iget_frame h).1).elim
  | idup u k =>
    simp only [step] at h
    split_ifs at h
    cases h
    exact (hsame rfl).elim
  | ilock u k =>
    simp only [step] at h
    split_ifs at h
    exact (hsame (ilock_frame h).1).elim
  | iunlock u k =>
    simp only [step] at h
    split_ifs at h
    exact (hsame (iunlock_frame h).1).elim
  | iupdate u k din =>
    simp only [step] at h
    split_ifs at h with hc
    cases h
    rw [iupdate_eq] at ha
    dsimp only at ha
    rw [Sys.write_inode] at ha
    split_ifs at ha with hm
    · -- the holder's copy is current, and the write keeps its type
      have hcur := hs.current_of_holder hc.2.1 hc.1
      rw [hc.2.2] at ha
      exact (hcur.2 ha).elim
    · exact (hb ha).elim
  | iput u k =>
    simp only [step] at h
    split_ifs at h
    exact (hsame (iput_frame h).1).elim
  | ialloc u dev' inum' type =>
    simp only [step] at h
    split_ifs at h
    dsimp only [Itable.ialloc] at h
    split_ifs at h with hfree
    cases h
    dsimp only at ha
    rw [Sys.write_inode] at ha
    split_ifs at ha with hm
    · obtain ⟨rfl, rfl⟩ := hm
      exact (hb hfree.2.2).elim
    · exact (hb ha).elim
  | next u =>
    simp only [step] at h
    split at h
    · cases h
    · rename_i e hpc
      dsimp only [Itable.iputTrunc] at h
      split at h
      · rename_i d hd
        cases h
        dsimp only at ha
        rw [inode_update_setInode (fun i hi => by rw [(itrunc_frame hd).1, Function.update_of_ne hi])]
          at ha
        split_ifs at ha with hm
        · obtain ⟨hh, hn⟩ := hs.trunc u e hpc
          exact ⟨u, e, rfl, hpc, hm.1.symm, hm.2.symm, hh, (hs.locked e u hh).2, hn⟩
        · exact (hb ha).elim
      · cases h
    · cases h
      exact (hsame rfl).elim
    · cases h
      exact (hsame rfl).elim
    · exact (hsame (iget_frame h).1).elim

omit [DecidableEq τ] in
/-- `ilock` leaves the entry holding the disk inode: a valid entry is current, and an invalid
one is read. -/
theorem Inv.ilock_current (hs : Inv s) {t : τ} {e : Fin ninode}
    (h : Itable.ilock s t e = some s') :
    (s'.inode e).din = (s'.disk (s'.inode e).dev).inode (s'.inode e).inum := by
  dsimp only [Itable.ilock] at h
  split_ifs at h with hbusy hv
  · have hnone : (s.inode e).holder = none := by
      by_contra hne
      exact hbusy (.inr hne)
    have hfree := hs.not_freeing (e := e) fun u hu => by
      rw [hnone] at hu
      cases hu
    cases h
    simpa using (hs.current (by omega) hv fun u => (hfree u).2).1
  · cases h
    simp

end Effects

/-! ### Every interleaving -/

/-- The inode table over every interleaving of its calls.  Entries in use hold distinct inodes.
A step marks an allocated disk inode free only as `iput`'s `itrunc`, on the entry whose
sleep-lock it holds, valid and with no links, in a window it entered only on the last reference
to a valid inode with no links.  And `ilock` always leaves the entry holding the disk inode: an
inode allocated again while its old entry is in the window is read afresh. -/
theorem itable_of_reachable [DecidableEq τ] [Fintype τ] {d : ℕ → Disk} {s : Sys τ}
    (hs : Steps.Reachable step (init d) s) :
    (∀ e e', 0 < (s.inode e).ref → 0 < (s.inode e').ref → (s.inode e).dev = (s.inode e').dev →
      (s.inode e).inum = (s.inode e').inum → e = e') ∧
    (∀ a s' dev inum, step s a = some s' → ((s.disk dev).inode inum).type ≠ .free →
      ((s'.disk dev).inode inum).type = .free →
      ∃ t e, a = .next t ∧ s.pc t = .trunc e ∧ (s.inode e).dev = dev ∧ (s.inode e).inum = inum ∧
        (s.inode e).holder = some t ∧ (s.inode e).valid = true ∧ (s.inode e).din.nlink = 0) ∧
    (∀ a s' t e, step s a = some s' → s.pc t ≠ .trunc e → s'.pc t = .trunc e →
      a = .iput t e ∧ (s.inode e).ref = 1 ∧ (s.inode e).valid = true ∧
        (s.inode e).din.nlink = 0) ∧
    (∀ t e s', step s (.ilock t e) = some s' →
      (s'.inode e).din = (s'.disk (s'.inode e).dev).inode (s'.inode e).inum) := by
  have hi := inv_of_reachable hs
  refine ⟨hi.unique, fun a s' dev inum h hb ha => hi.freed_by_iput h hb ha,
    fun a s' t e h hb ha => trunc_of_step h hb ha, fun t e s' h => ?_⟩
  simp only [step] at h
  split_ifs at h
  exact hi.ilock_current h

/-- Thread `0` frees inode `2` of device `1`.  While it is still inside `iput`, thread `1`
allocates inode `2` again, as a directory, and its `iget` finds the old entry.  Once thread `0`
is done, the entry is stale (not valid, its copy marked free), and thread `1`'s `ilock` reads the
directory from disk. -/
theorem ilock_rereads_realloc :
    ∃ s s', Steps.Reachable step (init fun _ => mkfsImage : Sys (Fin 2)) s ∧
      (s.inode 0).valid = false ∧ (s.inode 0).din.type = .free ∧
      step s (.ilock 1 0) = some s' ∧ (s'.inode 0).din.type = .dir ∧
      (s'.inode 0).din = (s'.disk (s'.inode 0).dev).inode (s'.inode 0).inum := by
  obtain ⟨s, hrun, hv, hfree, hlock⟩ : ∃ s, Steps.run step (init fun _ => mkfsImage : Sys (Fin 2))
      [.ialloc 0 1 2 .file, .next 0, .ilock 0 0, .iunlock 0 0, .iput 0 0, .next 0,
        .ialloc 1 1 2 .dir, .next 1, .next 0, .next 0] = some s ∧
      (s.inode 0).valid = false ∧ (s.inode 0).din.type = .free ∧
      (step s (.ilock 1 0)).map (fun s' => (s'.inode 0).din.type) = some .dir :=
    Steps.exists_of_any (by decide +kernel)
  have hs := Steps.reachable_of_run hrun
  obtain ⟨s', hs', htype⟩ : ∃ s', step s (.ilock 1 0) = some s' ∧ (s'.inode 0).din.type = .dir := by
    cases h : step s (.ilock 1 0) with
    | none =>
      rw [h] at hlock
      cases hlock
    | some s' =>
      rw [h] at hlock
      exact ⟨s', rfl, Option.some.inj hlock⟩
  exact ⟨s, s', hs, hv, hfree, hs', htype, (itable_of_reachable hs).2.2.2 1 0 s' hs'⟩

end Xv6.Itable
