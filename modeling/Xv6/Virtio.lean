import Xv6.Param
import Xv6.Lib.Run
import Xv6.Lib.Ring

/-!
# The virtio disk driver (`kernel/virtio_disk.c`)

The driver shares `NUM` descriptors and two rings with the device.  A request is a chain of three
descriptors: the command header, the buffer's data and a status byte.  The driver publishes the
chain's head in the avail ring; the device takes it, does the transfer, writes `0` to the status
byte and puts the head in the used ring; `virtio_disk_intr` then marks the buffer done, and the
process that asked frees the chain.

The model keeps every field the driver reads or writes.  A descriptor's `addr` is kept as what it
points at (`Addr`); the bytes moved by a transfer are not modelled.  Ring indices are `uint16`,
kept modulo `2 ^ 16`.

Each critical section under `vdisk_lock` is one event (`Event`), with the sleeps of
`virtio_disk_rw` splitting it in three: `rw` (a call, up to its first sleep), `retry` (a wake-up
for free descriptors) and `resume` (a wake-up after `b->disk` cleared).  A process may be woken at
any time, and then runs its loop's test again, so wake-ups are not modelled.  The device is the
environment: `take` takes the next published head, and `complete head` finishes any chain it
has taken, in any order.  A call to `virtio_disk_rw` holds the buffer's sleep-lock, so no two
processes are in the driver with one buffer.

* `allocDesc`, `freeDesc`, `freeChain`, `alloc3Desc`, `format`, `virtioDiskIntr`: the functions;
* `exec`: what an event does, a panic included; `step`: the events that do not panic;
* one spec lemma per function: `allocDesc_some`, `freeDesc_ok`, `freeChain_linked` (a chain of
  three linked descriptors), `alloc3Desc_cases` and `submit_cases` (three distinct free
  descriptors, or none), the `format_*` lemmas, `intrLoop_ok`, and `deviceComplete_linked`;
* the `gap_*` lemmas: the entries between two `uint16` ring indices.
-/

namespace Xv6.Virtio

/-- `NUM`: the number of descriptors, and the size of each ring. -/
def num : ℕ := 8

/-- `VRING_DESC_F_NEXT`: chained with another descriptor. -/
def fNext : ℕ := 1

/-- `VRING_DESC_F_WRITE`: the device writes the descriptor's memory. -/
def fWrite : ℕ := 2

/-- `VIRTIO_BLK_T_IN`: read the disk. -/
def blkTIn : ℕ := 0

/-- `VIRTIO_BLK_T_OUT`: write the disk. -/
def blkTOut : ℕ := 1

/-- `sizeof(struct virtio_blk_req)`. -/
def reqSize : ℕ := 16

/-- Ring indices are `uint16`. -/
def idxMod : ℕ := 2 ^ 16

/-- What a descriptor's `addr` points at: nothing, the command header `disk.ops[i]`, the data of
a buffer, or the status byte `disk.info[i].status`. -/
inductive Addr (β : Type)
  | none
  | op (i : ℕ)
  | data (b : β)
  | status (i : ℕ)
  deriving DecidableEq

/-- `struct virtq_desc`. -/
structure Desc (β : Type) where
  addr : Addr β
  len : ℕ
  flags : ℕ
  next : ℕ
  deriving DecidableEq

/-- A descriptor as `free_desc` leaves it. -/
def Desc.zero {β : Type} : Desc β := ⟨.none, 0, 0, 0⟩

/-- `struct virtio_blk_req`, less its `reserved` word. -/
structure BlkReq where
  type : ℕ
  sector : ℕ

/-- `disk.info[i]`: the buffer of the request whose chain starts at `i`, and its status byte. -/
structure Info (β : Type) where
  b : Option β
  status : ℕ

/-- `struct virtq_avail` and `struct virtq_used`: the ring of chain heads and its `idx`. -/
@[ext] structure Ring where
  ring : ℕ → ℕ
  idx : ℕ

/-- `struct disk`, the rings it shares with the device, and the `disk` flag of each buffer. -/
@[ext] structure Disk (β : Type) where
  desc : ℕ → Desc β
  avail : Ring
  used : Ring
  free : ℕ → Bool
  /-- `disk.used_idx`: how far the driver has looked in the used ring. -/
  usedIdx : ℕ
  info : ℕ → Info β
  ops : ℕ → BlkReq
  /-- `b->disk` of each buffer: the device owns it. -/
  bdisk : β → Bool

variable {β : Type}

/-! ### The driver's functions -/

/-- `alloc_desc`: the first free descriptor, now taken; `none` for `-1`. -/
def allocDesc (d : Disk β) : Option (ℕ × Disk β) :=
  ((List.range num).find? fun i => d.free i).map
    fun i => (i, { d with free := Function.update d.free i false })

/-- A descriptor `free_desc` gives back. -/
def Disk.release (d : Disk β) (i : ℕ) : Disk β :=
  { d with desc := Function.update d.desc i Desc.zero, free := Function.update d.free i true }

/-- `free_desc`: panics on a descriptor out of range or already free. -/
def freeDesc (d : Disk β) (i : ℕ) : Except String (Disk β) :=
  if num ≤ i then .error "free_desc 1"
  else if d.free i then .error "free_desc 2"
  else .ok (d.release i)

/-- The descriptors below `NUM` in use. -/
def Disk.busy (d : Disk β) : Finset ℕ := (Finset.range num).filter fun i => d.free i = false

theorem busy_release {d : Disk β} {i : ℕ} (hi : i < num) (hf : d.free i = false) :
    (d.release i).busy = d.busy.erase i := by
  ext j
  unfold Disk.busy
  rw [Finset.mem_erase, Finset.mem_filter, Finset.mem_filter, Finset.mem_range]
  by_cases hj : j = i
  · subst hj
    simp [Disk.release]
  · simp [Disk.release, hj]

/-- Each `free_desc` that returns leaves one descriptor fewer in use. -/
theorem busy_freeDesc {d d' : Disk β} {i : ℕ} (h : freeDesc d i = .ok d') :
    d'.busy.card < d.busy.card := by
  unfold freeDesc at h
  split_ifs at h with h1 h2
  cases h
  have hf : d.free i = false := by simpa using h2
  rw [busy_release (by omega) hf]
  exact Finset.card_erase_lt_of_mem (by simp [Disk.busy, hf, show i < num by omega])

/-- `free_chain`: free descriptors along `next` while `VRING_DESC_F_NEXT` is set.  Each turn
frees one more descriptor or panics, so the loop ends. -/
def freeChain (d : Disk β) (i : ℕ) : Except String (Disk β) :=
  match h : freeDesc d i with
  | .error e => .error e
  | .ok d' =>
    if (d.desc i).flags &&& fNext ≠ 0 then freeChain d' (d.desc i).next else .ok d'
termination_by d.busy.card
decreasing_by exact busy_freeDesc h

/-- The loop of `alloc3_desc`: `idx` taken so far, `k` more to take.  When one is missing, the
ones taken are given back. -/
def alloc3Loop : ℕ → List ℕ → Disk β → Except String (Option (List ℕ) × Disk β)
  | 0, idx, d => .ok (some idx, d)
  | k + 1, idx, d =>
    match allocDesc d with
    | some (i, d) => alloc3Loop k (idx ++ [i]) d
    | none => do
      let d ← idx.foldlM freeDesc d
      pure (none, d)

/-- `alloc3_desc`: three descriptors, or none of them. -/
def alloc3Desc (d : Disk β) : Except String (Option (List ℕ) × Disk β) := alloc3Loop 3 [] d

/-! ### Taking and giving back descriptors -/

section Alloc

variable {d d' : Disk β}

theorem allocDesc_some {i : ℕ} (h : allocDesc d = some (i, d')) :
    i < num ∧ d.free i = true ∧ d' = { d with free := Function.update d.free i false } := by
  unfold allocDesc at h
  rcases hf : (List.range num).find? (fun i => d.free i) with _ | k
  · rw [hf] at h
    cases h
  · rw [hf, Option.map_some, Option.some.injEq, Prod.mk.injEq] at h
    obtain ⟨rfl, rfl⟩ := h
    obtain ⟨h1, h2, -⟩ := List.find?_range_eq_some.1 hf
    exact ⟨List.mem_range.1 h2, h1, rfl⟩

theorem allocDesc_none (h : allocDesc d = none) : ∀ i < num, d.free i = false := by
  unfold allocDesc at h
  rw [Option.map_eq_none_iff, List.find?_eq_none] at h
  intro i hi
  simpa using h i (List.mem_range.2 hi)

theorem freeDesc_ok {i : ℕ} (hi : i < num) (hf : d.free i = false) :
    freeDesc d i = .ok (d.release i) := by
  unfold freeDesc
  rw [if_neg (by omega), if_neg (by simp [hf])]

/-- The descriptors of `l` taken. -/
def Disk.takeAll (d : Disk β) (l : List ℕ) : Disk β :=
  { d with free := fun i => if i ∈ l then false else d.free i }

/-- The descriptors of `l` given back, as `free_desc` gives them back one by one. -/
def Disk.releaseAll (d : Disk β) (l : List ℕ) : Disk β :=
  { d with
    desc := fun i => if i ∈ l then Desc.zero else d.desc i
    free := fun i => if i ∈ l then true else d.free i }

@[simp] theorem takeAll_desc (d : Disk β) (l : List ℕ) : (d.takeAll l).desc = d.desc := rfl
@[simp] theorem takeAll_info (d : Disk β) (l : List ℕ) : (d.takeAll l).info = d.info := rfl
theorem takeAll_free (d : Disk β) (l : List ℕ) (j : ℕ) :
    (d.takeAll l).free j = if j ∈ l then false else d.free j := rfl

@[simp] theorem takeAll_nil (d : Disk β) : d.takeAll [] = d := by
  ext <;> simp [Disk.takeAll]

@[simp] theorem releaseAll_nil (d : Disk β) : d.releaseAll [] = d := by
  ext <;> simp [Disk.releaseAll]

theorem releaseAll_cons (d : Disk β) (j : ℕ) (l : List ℕ) :
    d.releaseAll (j :: l) = (d.release j).releaseAll l := by
  refine Disk.ext ?_ rfl rfl ?_ rfl rfl rfl rfl <;> funext i <;> by_cases hj : i = j <;>
    simp [Disk.releaseAll, Disk.release, hj]

/-- Giving back what was just taken leaves every descriptor's `free` as it was. -/
theorem takeAll_releaseAll (d : Disk β) (l : List ℕ) :
    (d.takeAll l).releaseAll l = d.releaseAll l := by
  refine Disk.ext rfl rfl rfl ?_ rfl rfl rfl rfl
  funext i
  by_cases hl : i ∈ l <;> simp [Disk.takeAll, Disk.releaseAll, hl]

theorem takeAll_append_singleton (d : Disk β) (l : List ℕ) (i : ℕ) :
    { d.takeAll l with free := Function.update (d.takeAll l).free i false } = d.takeAll (l ++ [i]) := by
  refine Disk.ext rfl rfl rfl ?_ rfl rfl rfl rfl
  funext j
  by_cases hi : j = i <;> simp [Disk.takeAll, hi]

/-- `free_desc` over descriptors in use, each once, gives them all back. -/
theorem foldlM_freeDesc : ∀ {d : Disk β} {l : List ℕ}, l.Nodup →
    (∀ j ∈ l, j < num ∧ d.free j = false) → l.foldlM freeDesc d = .ok (d.releaseAll l)
  | d, [], _, _ => by
    rw [releaseAll_nil]
    rfl
  | d, j :: l, hnd, hl => by
    obtain ⟨hj, hnd⟩ := List.nodup_cons.1 hnd
    have hl' : ∀ k ∈ l, k < num ∧ (d.release j).free k = false := fun k hk => by
      have hkj : k ≠ j := fun h => hj (h ▸ hk)
      simpa [Disk.release, hkj] using hl k (List.mem_cons_of_mem _ hk)
    obtain ⟨hlt, hf⟩ := hl j List.mem_cons_self
    rw [List.foldlM_cons, freeDesc_ok hlt hf, releaseAll_cons]
    exact foldlM_freeDesc hnd hl'

/-- The loop of `alloc3_desc` from `d` with `idx` taken: it takes `k` more, or gives back all it
took. -/
theorem alloc3Loop_cases (d : Disk β) : ∀ (k : ℕ) (idx : List ℕ), idx.Nodup →
    (∀ j ∈ idx, j < num ∧ d.free j = true) →
    (∃ new, alloc3Loop k idx (d.takeAll idx) = .ok (some (idx ++ new), d.takeAll (idx ++ new)) ∧
      new.length = k ∧ (idx ++ new).Nodup ∧ ∀ j ∈ idx ++ new, j < num ∧ d.free j = true) ∨
    (∃ l, alloc3Loop k idx (d.takeAll idx) = .ok (none, d.releaseAll l) ∧
      ∀ j ∈ l, j < num ∧ d.free j = true)
  | 0, idx, hnd, hidx => .inl ⟨[], by simp [alloc3Loop], rfl, by simpa using hnd, by simpa using hidx⟩
  | k + 1, idx, hnd, hidx => by
    rw [alloc3Loop]
    rcases ha : allocDesc (d.takeAll idx) with _ | ⟨i, d'⟩
    · -- no descriptor is free: the ones taken go back
      right
      have hfree : ∀ j ∈ idx, j < num ∧ (d.takeAll idx).free j = false := fun j hj =>
        ⟨(hidx j hj).1, by simp [Disk.takeAll, hj]⟩
      refine ⟨idx, ?_, hidx⟩
      simp only
      rw [foldlM_freeDesc hnd hfree, takeAll_releaseAll]
      rfl
    · obtain ⟨hi, hfi, rfl⟩ := allocDesc_some ha
      have hnot : i ∉ idx := fun h => by simp [Disk.takeAll, h] at hfi
      have hdi : d.free i = true := by simpa [Disk.takeAll, hnot] using hfi
      simp only
      rw [takeAll_append_singleton]
      have hnd' : (idx ++ [i]).Nodup := List.nodup_append.2 ⟨hnd, List.nodup_singleton i,
        fun a ha b hb hab => hnot (by rw [List.mem_singleton] at hb; rw [← hb, ← hab]; exact ha)⟩
      have hidx' : ∀ j ∈ idx ++ [i], j < num ∧ d.free j = true := fun j hj => by
        rcases List.mem_append.1 hj with hj | hj
        · exact hidx j hj
        · rw [List.mem_singleton.1 hj]
          exact ⟨hi, hdi⟩
      rcases alloc3Loop_cases d k (idx ++ [i]) hnd' hidx' with ⟨new, hrun, hlen, hnd'', hall⟩ | hfail
      · have e : idx ++ [i] ++ new = idx ++ i :: new := by simp
        rw [e] at hrun hnd'' hall
        exact .inl ⟨i :: new, hrun, by simp [hlen], hnd'', hall⟩
      · exact .inr hfail

/-- `alloc3_desc` takes three distinct free descriptors, or gives back all it took: `free` is then
as it was, and only descriptors that were free are cleared. -/
theorem alloc3Desc_cases (d : Disk β) :
    (∃ i0 i1 i2, alloc3Desc d = .ok (some [i0, i1, i2], d.takeAll [i0, i1, i2]) ∧
      [i0, i1, i2].Nodup ∧ ∀ j ∈ [i0, i1, i2], j < num ∧ d.free j = true) ∨
    (∃ l, alloc3Desc d = .ok (none, d.releaseAll l) ∧ ∀ j ∈ l, j < num ∧ d.free j = true) := by
  unfold alloc3Desc
  rcases alloc3Loop_cases d 3 [] List.nodup_nil (by simp) with ⟨new, hrun, hlen, hnd, hall⟩ | hfail
  · match new, hlen with
    | [i0, i1, i2], _ =>
      rw [takeAll_nil] at hrun
      exact .inl ⟨i0, i1, i2, hrun, hnd, hall⟩
  · rw [takeAll_nil] at hfail
    exact .inr hfail

/-- Descriptors `i0`, `i1`, `i2` linked as a chain: `VRING_DESC_F_NEXT` from the first to the
second and from the second to the third, and the third ends it. -/
structure Linked (d : Disk β) (i0 i1 i2 : ℕ) : Prop where
  first : (d.desc i0).flags &&& fNext ≠ 0 ∧ (d.desc i0).next = i1
  second : (d.desc i1).flags &&& fNext ≠ 0 ∧ (d.desc i1).next = i2
  last : (d.desc i2).flags &&& fNext = 0

theorem freeChain_next {i : ℕ} (hf : freeDesc d i = .ok d') (hn : (d.desc i).flags &&& fNext ≠ 0) :
    freeChain d i = freeChain d' (d.desc i).next := by
  rw [freeChain]
  split
  · rename_i he
    rw [hf] at he
    cases he
  · rename_i he
    rw [hf] at he
    cases he
    rw [if_pos hn]

theorem freeChain_last {i : ℕ} (hf : freeDesc d i = .ok d') (hn : (d.desc i).flags &&& fNext = 0) :
    freeChain d i = .ok d' := by
  rw [freeChain]
  split
  · rename_i he
    rw [hf] at he
    cases he
  · rename_i he
    rw [hf] at he
    cases he
    rw [if_neg (not_not.2 hn)]

/-- `free_chain` of a linked chain of three descriptors in use gives back exactly those three. -/
theorem freeChain_linked {i0 i1 i2 : ℕ} (h : Linked d i0 i1 i2) (hnd : [i0, i1, i2].Nodup)
    (hused : ∀ j ∈ [i0, i1, i2], j < num ∧ d.free j = false) :
    freeChain d i0 = .ok (d.releaseAll [i0, i1, i2]) := by
  simp only [List.nodup_cons, List.mem_cons, not_or, List.not_mem_nil, not_false_eq_true,
    List.nodup_nil, and_true] at hnd
  obtain ⟨⟨h01, h02⟩, h12⟩ := hnd
  obtain ⟨h0, hf0⟩ := hused i0 (by simp)
  obtain ⟨h1, hf1⟩ := hused i1 (by simp)
  obtain ⟨h2, hf2⟩ := hused i2 (by simp)
  -- each `free_desc` leaves the descriptors after it as they were
  have hd1 : (d.release i0).desc i1 = d.desc i1 := by simp [Disk.release, Ne.symm h01]
  have hd2 : ((d.release i0).release i1).desc i2 = d.desc i2 := by
    simp [Disk.release, Ne.symm h02, Ne.symm h12]
  rw [freeChain_next (freeDesc_ok h0 hf0) h.first.1, h.first.2,
    freeChain_next (freeDesc_ok h1 (by simp [Disk.release, Ne.symm h01, hf1])) (hd1 ▸ h.second.1),
    hd1, h.second.2, freeChain_last (freeDesc_ok h2 (by simp [Disk.release, Ne.symm h02,
      Ne.symm h12, hf2])) (hd2 ▸ h.last), releaseAll_cons, releaseAll_cons, releaseAll_cons,
    releaseAll_nil]

/-- Giving back descriptors that were free leaves `free` as it was. -/
theorem releaseAll_free {l : List ℕ} (hl : ∀ j ∈ l, j < num ∧ d.free j = true) :
    (d.releaseAll l).free = d.free := by
  funext i
  by_cases hi : i ∈ l
  · simp [Disk.releaseAll, hi, (hl i hi).2]
  · simp [Disk.releaseAll, hi]

end Alloc

variable [DecidableEq β]

/-- The formatting of the three descriptors in `virtio_disk_rw`, and the publication of the
chain's head in the avail ring. -/
def format (d : Disk β) (b : β) (write : Bool) (blockno : ℕ) (idx : List ℕ) : Disk β :=
  let i0 := idx.getD 0 0
  let i1 := idx.getD 1 0
  let i2 := idx.getD 2 0
  let d := { d with
    ops := Function.update d.ops i0 ⟨if write then blkTOut else blkTIn, blockno * (bsize / 512)⟩ }
  let d := { d with desc := Function.update d.desc i0 ⟨.op i0, reqSize, fNext, i1⟩ }
  let d := { d with
    desc := Function.update d.desc i1 ⟨.data b, bsize, (if write then 0 else fWrite) ||| fNext, i2⟩ }
  let d := { d with info := Function.update d.info i0 { d.info i0 with status := 0xff } }
  let d := { d with desc := Function.update d.desc i2 ⟨.status i0, 1, fWrite, 0⟩ }
  let d := { d with
    bdisk := Function.update d.bdisk b true
    info := Function.update d.info i0 { d.info i0 with b := some b } }
  let d := { d with
    avail := { d.avail with ring := Function.update d.avail.ring (d.avail.idx % num) i0 } }
  { d with avail := { d.avail with idx := (d.avail.idx + 1) % idxMod } }

/-- `virtio_disk_rw` up to its first sleep: `alloc3_desc`, and when it succeeds the chain
formatted and published.  `none` when it sleeps for free descriptors. -/
def submit (d : Disk β) (b : β) (write : Bool) (blockno : ℕ) :
    Except String (Option (List ℕ) × Disk β) := do
  match ← alloc3Desc d with
  | (none, d) => pure (none, d)
  | (some idx, d) => pure (some idx, format d b write blockno idx)

/-- `virtio_disk_rw` up to its first sleep takes three distinct free descriptors and publishes
them formatted, or takes none. -/
theorem submit_cases (d : Disk β) (b : β) (write : Bool) (blockno : ℕ) :
    (∃ i0 i1 i2, submit d b write blockno =
        .ok (some [i0, i1, i2], format (d.takeAll [i0, i1, i2]) b write blockno [i0, i1, i2]) ∧
      [i0, i1, i2].Nodup ∧ ∀ j ∈ [i0, i1, i2], j < num ∧ d.free j = true) ∨
    (∃ l, submit d b write blockno = .ok (none, d.releaseAll l) ∧
      ∀ j ∈ l, j < num ∧ d.free j = true) := by
  rcases alloc3Desc_cases d with ⟨i0, i1, i2, hrun, hnd, hfree⟩ | ⟨l, hrun, hfree⟩
  · exact .inl ⟨i0, i1, i2, by rw [submit, hrun]; rfl, hnd, hfree⟩
  · exact .inr ⟨l, by rw [submit, hrun]; rfl, hfree⟩

/-- The end of `virtio_disk_rw` once `b->disk` is clear: forget the buffer, free the chain. -/
def finish (d : Disk β) (i0 : ℕ) : Except String (Disk β) :=
  freeChain { d with info := Function.update d.info i0 { d.info i0 with b := none } } i0

/-- One turn of the loop of `virtio_disk_intr`.  A request with no buffer would make
`b->disk = 0` write through a null pointer, a kernel trap. -/
def intrOne (d : Disk β) : Except String (Disk β) :=
  let id := d.used.ring (d.usedIdx % num)
  if (d.info id).status ≠ 0 then .error "virtio_disk_intr status"
  else match (d.info id).b with
    | none => .error "kerneltrap"
    | some b => .ok { d with
        bdisk := Function.update d.bdisk b false
        usedIdx := (d.usedIdx + 1) % idxMod }

/-- `k` turns of the loop of `virtio_disk_intr`. -/
def intrLoop : ℕ → Disk β → Except String (Disk β)
  | 0, d => .ok d
  | k + 1, d => do
    let d ← intrOne d
    intrLoop k d

/-- The entries of a ring from read index `r` to write index `a`, both `uint16`. -/
def gap (a r : ℕ) : ℕ := (a + idxMod - r) % idxMod

/-- The used entries the driver has not looked at. -/
def Disk.unseen (d : Disk β) : ℕ := gap d.used.idx d.usedIdx

/-- `virtio_disk_intr`: the loop runs until `used_idx` meets `used->idx`, which takes
`Disk.unseen` turns. -/
def virtioDiskIntr (d : Disk β) : Except String (Disk β) := intrLoop d.unseen d

section Request

variable {d : Disk β} {b : β} {write : Bool} {blockno i0 i1 i2 : ℕ}

@[simp] theorem format_free : (format d b write blockno [i0, i1, i2]).free = d.free := rfl
@[simp] theorem format_used : (format d b write blockno [i0, i1, i2]).used = d.used := rfl
@[simp] theorem format_usedIdx :
    (format d b write blockno [i0, i1, i2]).usedIdx = d.usedIdx := rfl
@[simp] theorem format_bdisk :
    (format d b write blockno [i0, i1, i2]).bdisk = Function.update d.bdisk b true := rfl
@[simp] theorem format_avail : (format d b write blockno [i0, i1, i2]).avail =
    ⟨Function.update d.avail.ring (d.avail.idx % num) i0, (d.avail.idx + 1) % idxMod⟩ := rfl

theorem format_desc : (format d b write blockno [i0, i1, i2]).desc =
    Function.update (Function.update (Function.update d.desc i0 ⟨.op i0, reqSize, fNext, i1⟩) i1
      ⟨.data b, bsize, (if write then 0 else fWrite) ||| fNext, i2⟩) i2 ⟨.status i0, 1, fWrite, 0⟩ :=
  rfl

@[simp] theorem format_info :
    (format d b write blockno [i0, i1, i2]).info = Function.update d.info i0 ⟨some b, 0xff⟩ := by
  funext j
  by_cases hj : j = i0
  · subst hj
    simp [format]
  · simp [format, Function.update_of_ne hj]

theorem format_desc_of_not_mem {j : ℕ} (hj : j ∉ [i0, i1, i2]) :
    (format d b write blockno [i0, i1, i2]).desc j = d.desc j := by
  simp only [List.mem_cons, List.not_mem_nil, or_false, not_or] at hj
  rw [format_desc, Function.update_of_ne hj.2.2, Function.update_of_ne hj.2.1,
    Function.update_of_ne hj.1]

theorem format_info_of_ne {j : ℕ} (hj : j ≠ i0) :
    (format d b write blockno [i0, i1, i2]).info j = d.info j := by
  rw [format_info, Function.update_of_ne hj]

section Formatted

variable (hnd : [i0, i1, i2].Nodup)
include hnd

theorem format_desc_head :
    (format d b write blockno [i0, i1, i2]).desc i0 = ⟨.op i0, reqSize, fNext, i1⟩ := by
  simp only [List.nodup_cons, List.mem_cons, not_or] at hnd
  rw [format_desc, Function.update_of_ne hnd.1.2.1, Function.update_of_ne hnd.1.1,
    Function.update_self]

theorem format_desc_data : (format d b write blockno [i0, i1, i2]).desc i1 =
    ⟨.data b, bsize, (if write then 0 else fWrite) ||| fNext, i2⟩ := by
  simp only [List.nodup_cons, List.mem_cons, not_or] at hnd
  rw [format_desc, Function.update_of_ne hnd.2.1.1, Function.update_self]

omit hnd in
theorem format_desc_status :
    (format d b write blockno [i0, i1, i2]).desc i2 = ⟨.status i0, 1, fWrite, 0⟩ := by
  rw [format_desc, Function.update_self]

/-- The descriptors `format` writes are linked head, data, status. -/
theorem format_linked : Linked (format d b write blockno [i0, i1, i2]) i0 i1 i2 := by
  refine ⟨?_, ?_, ?_⟩
  · rw [format_desc_head hnd]
    exact ⟨show fNext &&& fNext ≠ 0 by decide, rfl⟩
  · rw [format_desc_data hnd]
    refine ⟨show ((if write then 0 else fWrite) ||| fNext) &&& fNext ≠ 0 from ?_, rfl⟩
    cases write <;> decide
  · rw [format_desc_status]
    show fWrite &&& fNext = 0
    decide

end Formatted

/-- `virtio_disk_intr` over `k` used entries whose requests have their status `0` and a buffer:
each buffer is marked done, and `used_idx` moves past them. -/
theorem intrLoop_ok : ∀ (k : ℕ) (d : Disk β), d.usedIdx < idxMod →
    (∀ h ∈ Ring.window d.used.ring num d.usedIdx k, (d.info h).status = 0 ∧ (d.info h).b ≠ none) →
    intrLoop k d = .ok { d with
      usedIdx := (d.usedIdx + k) % idxMod
      bdisk := fun b => if some b ∈ (Ring.window d.used.ring num d.usedIdx k).map (d.info · |>.b)
        then false else d.bdisk b }
  | 0, d, hu, _ => by
    rw [intrLoop, Nat.add_zero, Nat.mod_eq_of_lt hu]
    rfl
  | k + 1, d, hu, hok => by
    rw [Ring.window_succ] at hok ⊢
    obtain ⟨hst, hb⟩ := hok _ List.mem_cons_self
    obtain ⟨b, hbs⟩ := Option.ne_none_iff_exists'.1 hb
    -- the next used entries, read from the advanced index
    have hcongr : Ring.window d.used.ring num ((d.usedIdx + 1) % idxMod) k =
        Ring.window d.used.ring num (d.usedIdx + 1) k :=
      Ring.window_congr _ (Nat.mod_mod_of_dvd _ (by decide)) k
    have hrest := intrLoop_ok k { d with
      bdisk := Function.update d.bdisk b false
      usedIdx := (d.usedIdx + 1) % idxMod } (Nat.mod_lt _ (by decide))
      (fun h hh => hok h (List.mem_cons_of_mem _ (hcongr ▸ hh)))
    rw [intrLoop, intrOne]
    simp only [hst, ne_eq, not_true_eq_false, if_false, hbs, bind, Except.bind]
    rw [hrest, hcongr]
    congr 1
    refine Disk.ext rfl rfl rfl rfl ?_ rfl rfl ?_
    · show ((d.usedIdx + 1) % idxMod + k) % idxMod = (d.usedIdx + (k + 1)) % idxMod
      simp only [idxMod]
      omega
    · funext b'
      by_cases hb' : b' = b
      · subst hb'
        simp [hbs]
      · simp [hb', hbs]

end Request

/-! ### Ring indices -/

section Gap

variable {a r : ℕ}

theorem gap_lt (a r : ℕ) : gap a r < idxMod := Nat.mod_lt _ (by decide)

theorem gap_self (a : ℕ) : gap a a = 0 := by
  unfold gap idxMod at *
  omega

theorem gap_ne_zero (ha : a < idxMod) (hr : r < idxMod) (hne : r ≠ a) : gap a r ≠ 0 := by
  unfold gap idxMod at *
  omega

/-- Writing one more entry. -/
theorem gap_push (ha : a < idxMod) (hr : r < idxMod) (h : gap a r + 1 < idxMod) :
    gap ((a + 1) % idxMod) r = gap a r + 1 := by
  unfold gap idxMod at *
  omega

/-- Reading one entry. -/
theorem gap_pop (ha : a < idxMod) (hr : r < idxMod) (hne : r ≠ a) :
    gap a ((r + 1) % idxMod) + 1 = gap a r := by
  unfold gap idxMod at *
  omega

/-- The write index, reached from the read index: the same slot of a ring of `NUM` entries. -/
theorem add_gap_mod (ha : a < idxMod) (hr : r < idxMod) : (r + gap a r) % num = a % num := by
  unfold gap idxMod num at *
  omega

theorem add_gap_idxMod (ha : a < idxMod) (hr : r < idxMod) : (r + gap a r) % idxMod = a := by
  unfold gap idxMod at *
  omega

/-- Writing the entry at the write index appends it to the entries from the read index. -/
theorem window_publish {ring : ℕ → ℕ} (ha : a < idxMod) (hr : r < idxMod) (hk : gap a r < num)
    (x : ℕ) :
    Ring.window (Function.update ring (a % num) x) num r (gap ((a + 1) % idxMod) r) =
      Ring.window ring num r (gap a r) ++ [x] := by
  have hlt : gap a r + 1 < idxMod := by
    unfold num idxMod at *
    omega
  rw [gap_push ha hr hlt, ← add_gap_mod ha hr, Ring.window_push _ hk]

/-- Reading the entry at the read index takes it off the front. -/
theorem window_take {ring : ℕ → ℕ} (ha : a < idxMod) (hr : r < idxMod) (hne : r ≠ a) :
    Ring.window ring num r (gap a r) =
      ring (r % num) :: Ring.window ring num ((r + 1) % idxMod) (gap a ((r + 1) % idxMod)) := by
  rw [← gap_pop ha hr hne, Ring.window_succ]
  congr 1
  exact Ring.window_congr _ (Nat.mod_mod_of_dvd _ (by decide)).symm _

end Gap

/-! ### The device -/

/-- The last descriptor of the chain from `i`, as the device follows it (at most `NUM` links). -/
def chainEnd (d : Disk β) : ℕ → ℕ → ℕ
  | 0, i => i
  | k + 1, i => if (d.desc i).flags &&& fNext ≠ 0 then chainEnd d k (d.desc i).next else i

/-- The device finishes the chain at `head`: status `0` at the address of its last descriptor,
and `head` appended to the used ring. -/
def deviceComplete (d : Disk β) (head : ℕ) : Disk β :=
  let info := match (d.desc (chainEnd d num head)).addr with
    | .status i => Function.update d.info i { d.info i with status := 0 }
    | _ => d.info
  { d with
    info := info
    used := ⟨Function.update d.used.ring (d.used.idx % num) head, (d.used.idx + 1) % idxMod⟩ }

omit [DecidableEq β] in
/-- The device follows a linked chain of three to its third descriptor. -/
theorem chainEnd_linked {d : Disk β} {i0 i1 i2 : ℕ} (h : Linked d i0 i1 i2) (k : ℕ) :
    chainEnd d (k + 3) i0 = i2 := by
  rw [chainEnd.eq_2, if_pos h.first.1, h.first.2, chainEnd.eq_2, if_pos h.second.1, h.second.2,
    chainEnd.eq_2, if_neg (not_not.2 h.last)]

omit [DecidableEq β] in
/-- The device finishing a linked chain whose last descriptor is the status byte of its head. -/
theorem deviceComplete_linked {d : Disk β} {i0 i1 i2 : ℕ} (h : Linked d i0 i1 i2)
    (hst : (d.desc i2).addr = .status i0) :
    deviceComplete d i0 = { d with
      info := Function.update d.info i0 { d.info i0 with status := 0 }
      used := ⟨Function.update d.used.ring (d.used.idx % num) i0, (d.used.idx + 1) % idxMod⟩ } := by
  unfold deviceComplete
  rw [show num = 5 + 3 from rfl, chainEnd_linked h, hst]

/-! ### The system -/

/-- What a process is doing in `virtio_disk_rw`. -/
inductive Phase (β : Type)
  | idle
  /-- In the loop around `alloc3_desc`, to read or write `b`. -/
  | alloc (b : β) (write : Bool) (blockno : ℕ)
  /-- The chain `idx` is published for `b`: in the loop while `b->disk == 1`. -/
  | wait (b : β) (idx : List ℕ)
  deriving DecidableEq

/-- The buffer a process is in the driver with. -/
def Phase.buf : Phase β → Option β
  | .idle => none
  | .alloc b _ _ => some b
  | .wait b _ => some b

/-- The driver, the processes, and the device's own state: how far it has read the avail ring,
and the chains it has taken and not finished. -/
structure Sys (ι β : Type) where
  disk : Disk β
  proc : ι → Phase β
  lastAvail : ℕ
  taken : List ℕ

/-- One critical section of the driver, or one action of the device. -/
inductive Event (ι β : Type)
  /-- Process `p`, holding `b`'s sleep-lock, calls `virtio_disk_rw(b, write)`. -/
  | rw (p : ι) (b : β) (write : Bool) (blockno : ℕ)
  /-- `p` wakes in the loop around `alloc3_desc`. -/
  | retry (p : ι)
  /-- `p` wakes and finds `b->disk` clear. -/
  | resume (p : ι)
  | intr
  | take
  /-- The device finishes the chain at `head`, one it has taken. -/
  | complete (head : ℕ)

variable {ι : Type} [DecidableEq ι] [Fintype ι]

/-- `p` after the loop around `alloc3_desc`: waiting on its chain, or still for descriptors. -/
def afterAlloc (s : Sys ι β) (p : ι) (b : β) (write : Bool) (blockno : ℕ) :
    Option (List ℕ) × Disk β → Sys ι β
  | (some idx, d) => { s with disk := d, proc := Function.update s.proc p (.wait b idx) }
  | (none, d) => { s with disk := d, proc := Function.update s.proc p (.alloc b write blockno) }

/-- What an event does: `none` when it cannot happen, else the panic or the next state. -/
def exec (s : Sys ι β) : Event ι β → Option (Except String (Sys ι β))
  | .rw p b write blockno =>
    if s.proc p = .idle ∧ ∀ q, (s.proc q).buf ≠ some b then
      some ((submit s.disk b write blockno).map (afterAlloc s p b write blockno))
    else none
  | .retry p =>
    match s.proc p with
    | .alloc b write blockno => some ((submit s.disk b write blockno).map (afterAlloc s p b write blockno))
    | _ => none
  | .resume p =>
    match s.proc p with
    | .wait b idx =>
      if s.disk.bdisk b = false then
        some ((finish s.disk (idx.getD 0 0)).map fun d =>
          { s with disk := d, proc := Function.update s.proc p .idle })
      else none
    | _ => none
  | .intr => some ((virtioDiskIntr s.disk).map fun d => { s with disk := d })
  | .take =>
    if s.lastAvail ≠ s.disk.avail.idx then
      some (.ok { s with
        lastAvail := (s.lastAvail + 1) % idxMod
        taken := s.taken ++ [s.disk.avail.ring (s.lastAvail % num)] })
    else none
  | .complete head =>
    if head ∈ s.taken then
      some (.ok { s with disk := deviceComplete s.disk head, taken := s.taken.erase head })
    else none

/-- The steps of the system: the events that happen without a panic. -/
def step (s : Sys ι β) (e : Event ι β) : Option (Sys ι β) := (exec s e).bind Except.toOption

/-- After `virtio_disk_init`: every descriptor free, the rings empty, no request. -/
def init : Sys ι β where
  disk :=
    { desc := fun _ => Desc.zero
      avail := ⟨fun _ => 0, 0⟩
      used := ⟨fun _ => 0, 0⟩
      free := fun i => decide (i < num)
      usedIdx := 0
      info := fun _ => ⟨none, 0⟩
      ops := fun _ => ⟨0, 0⟩
      bdisk := fun _ => false }
  proc := fun _ => .idle
  lastAvail := 0
  taken := []

end Xv6.Virtio
