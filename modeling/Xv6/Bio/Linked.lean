import Xv6.Bio.Cache
import Xv6.Lib.Run

/-!
# The buffer cache's linked list (`kernel/bio.c`)

`bio.c` keeps its buffers on a circular doubly linked list through `bcache.head`, in order of
use: `head.next` is the buffer used last and `head.prev` the one used longest ago.  This file
models the list as the code keeps it, with a `next` and a `prev` pointer for every buffer and for
the head, and each call as the pointer writes and loops the code makes.  `Cache.lean` models the
same cache with the list as a list.

* `Refines`, `bget_eq`, `brelse_refines`: the pointer model refines the list model: from pointers
  that form the cycle of a list, each call does to the buffers what the list model does, and
  leaves pointers that form the cycle of the list the list model leaves;
* `Sys`, `step`: the calls in any interleaving, made as the interface allows (`brelse`, `bpin`
  and the read in `bread` by a holder of the buffer, `bunpin` to drop a pin), with ghost counts
  of the references and pins held and the time each buffer was last moved to the front;
* `bcache_of_reachable`: in every reachable state the pointers form one cycle through the head
  and all `NBUF` buffers, no two buffers in use carry the same block, the lookup finds the copy
  in use, and a recycled buffer is, of those with no references, the one moved to the front
  longest ago;
* `bunpin_recycles_recent`: that is not the one released longest ago, since a `brelse` that
  leaves a pin does not move the buffer, and the `bunpin` that drops the last reference does not
  either.
-/

namespace Xv6.Bio.Linked

open DList

variable {D : Type*}

/-- `bcache`: the buffers, and the `next` and `prev` pointers of each buffer `some i` and of
`bcache.head`, which is `none`. -/
structure Cache (D : Type*) where
  buf : Fin nbuf → Buf D
  links : Links (Option (Fin nbuf))

/-- The cache with buffer `i` replaced. -/
def Cache.set (c : Cache D) (i : Fin nbuf) (b : Buf D) : Cache D :=
  { c with buf := Function.update c.buf i b }

@[simp] theorem Cache.set_buf_self (c : Cache D) (i : Fin nbuf) (b : Buf D) :
    (c.set i b).buf i = b := Function.update_self ..

@[simp] theorem Cache.set_buf_ne (c : Cache D) {i j : Fin nbuf} (b : Buf D) (h : j ≠ i) :
    (c.set i b).buf j = c.buf j := Function.update_of_ne h ..

@[simp] theorem Cache.set_links (c : Cache D) (i : Fin nbuf) (b : Buf D) :
    (c.set i b).links = c.links := rfl

/-- `binit`.  `bcache` starts zeroed, so every pointer starts null, here the head; the loop sets
the head to point at itself and links each buffer in after it in turn. -/
def binit (data : D) : Cache D where
  buf := fun _ => { valid := false, dev := 0, blockno := 0, refcnt := 0, data := data }
  links := (List.finRange nbuf).foldl (fun L b => L.pushFront none (some b))
    ⟨fun _ => none, fun _ => none⟩

/-- `b->dev == dev && b->blockno == blockno`. -/
def Cache.Caches (c : Cache D) (dev blockno : ℕ) (i : Fin nbuf) : Bool :=
  (c.buf i).dev == dev && (c.buf i).blockno == blockno

/-- The part of `bget` under `bcache.lock`.  Each loop stops at the head; it looks at `NBUF`
buffers and then the head, so `NBUF + 1` rounds are enough on a list of all buffers. -/
def bget (c : Cache D) (dev blockno : ℕ) : Except String (Cache D × Fin nbuf) :=
  -- Is the block already cached?
  match seek c.links.next none (Option.any (c.Caches dev blockno)) (nbuf + 1) (c.links.next none) with
  | some (some i) => .ok (c.set i { c.buf i with refcnt := (c.buf i).refcnt + 1 }, i)
  | _ =>
    -- Recycle the least recently used unused buffer.
    match seek c.links.prev none (Option.any fun i => (c.buf i).refcnt == 0) (nbuf + 1)
        (c.links.prev none) with
    | some (some i) =>
      .ok (c.set i { c.buf i with dev := dev, blockno := blockno, valid := false, refcnt := 1 }, i)
    | _ => .error "bget: no buffers"

/-- The rest of `bread` once it holds the buffer: read the block from disk if not valid. -/
def bread (c : Cache D) (disk : ℕ → D) (i : Fin nbuf) : Cache D :=
  if (c.buf i).valid then c
  else c.set i { c.buf i with data := disk (c.buf i).blockno, valid := true }

/-- `brelse`: drop a reference; a buffer nobody refers to is unlinked and linked in again after
the head. -/
def brelse (c : Cache D) (i : Fin nbuf) : Cache D :=
  let c := c.set i { c.buf i with refcnt := (c.buf i).refcnt - 1 }
  if (c.buf i).refcnt = 0 then
    { c with links := (c.links.unlink (some i)).pushFront none (some i) }
  else c

/-- `bpin`. -/
def bpin (c : Cache D) (i : Fin nbuf) : Cache D :=
  c.set i { c.buf i with refcnt := (c.buf i).refcnt + 1 }

/-- `bunpin`. -/
def bunpin (c : Cache D) (i : Fin nbuf) : Cache D :=
  c.set i { c.buf i with refcnt := (c.buf i).refcnt - 1 }

/-! ### The pointer model refines the list model -/

/-- The pointer cache `c` is the list cache `a`: the same buffers, and pointers that form the
cycle from the head through `a`'s list. -/
structure Refines (c : Cache D) (a : Bcache D) : Prop where
  buf : c.buf = a.buf
  ring : c.links.Ring none (a.lru.map some)

section Refines

variable {c : Cache D} {a : Bcache D}

theorem Refines.set (h : Refines c a) (i : Fin nbuf) (b : Buf D) : Refines (c.set i b) (a.set i b) :=
  ⟨by rw [Cache.set, Bcache.set, h.buf], h.ring⟩

theorem Refines.caches (h : Refines c a) : c.Caches = a.Caches := by
  unfold Cache.Caches Bcache.Caches
  rw [h.buf]

theorem binit_refines (data : D) : Refines (binit data) (Bio.binit data) := by
  refine ⟨rfl, ?_⟩
  have h0 : (⟨fun _ => none, fun _ => none⟩ : Links (Option (Fin nbuf))).Ring none [] :=
    Links.ring_nil rfl rfl
  have hnd : ((List.finRange nbuf).map some ++ [none]).Nodup := by
    simp [List.nodup_append, List.nodup_map_iff (Option.some_injective _), List.nodup_finRange]
  have := h0.foldl_pushFront hnd
  simpa [binit, Bio.binit, List.foldl_map, List.map_reverse] using this

/-- On a refining cache, `bget`'s two loops find what the list model's searches find, so it
does what the list model does to the buffers and leaves the pointers alone. -/
theorem bget_eq (h : Refines c a) (dev blockno : ℕ) :
    bget c dev blockno = (Bio.bget a dev blockno).map fun r => (⟨r.1.buf, c.links⟩, r.2) := by
  obtain ⟨buf, L⟩ := c
  obtain ⟨hbuf, hring⟩ := h
  subst hbuf
  have hlen : (a.lru.map some).length < nbuf + 1 := by simp [a.lru_perm.length_eq]
  unfold bget Bio.bget
  dsimp only
  rw [hring.seek_next _ hlen, hring.seek_prev _ hlen, List.find?_map, ← List.map_reverse,
    List.find?_map]
  -- the searches over `some`s are the list model's searches
  change (match (a.lru.find? (a.Caches dev blockno)).map some with
      | some (some i) => _ | _ => _) = _
  cases a.lru.find? (a.Caches dev blockno) with
  | some i => rfl
  | none =>
    change (match (a.lru.reverse.find? fun i => (a.buf i).refcnt == 0).map some with
      | some (some i) => _ | _ => _) = _
    cases a.lru.reverse.find? fun i => (a.buf i).refcnt == 0 with
    | some i => rfl
    | none => rfl

/-- What `bget` returns from a refining cache, the list model returns too, and the two caches it
leaves still correspond. -/
theorem Refines.bget (h : Refines c a) {dev blockno : ℕ} {c' : Cache D} {i : Fin nbuf}
    (hb : bget c dev blockno = .ok (c', i)) :
    ∃ a', Bio.bget a dev blockno = .ok (a', i) ∧ Refines c' a' := by
  rw [bget_eq h] at hb
  cases ha : Bio.bget a dev blockno with
  | error e => simp [ha, Except.map] at hb
  | ok r =>
    obtain ⟨a', i'⟩ := r
    simp only [ha, Except.map, Except.ok.injEq, Prod.mk.injEq] at hb
    obtain ⟨rfl, rfl⟩ := hb
    refine ⟨a', rfl, rfl, ?_⟩
    rw [(bget_lru_refcnt ha).1]
    exact h.ring

theorem bread_refines (h : Refines c a) (disk : ℕ → D) (i : Fin nbuf) :
    Refines (bread c disk i) (Bio.bread a disk i) := by
  unfold bread Bio.bread
  rw [h.buf]
  split_ifs
  · exact h
  · exact h.set i _

/-- `brelse`'s pointer writes move the buffer to the front of the list. -/
theorem brelse_refines (h : Refines c a) (i : Fin nbuf) : Refines (brelse c i) (Bio.brelse a i) := by
  obtain ⟨buf, L⟩ := c
  obtain ⟨hbuf, hring⟩ := h
  subst hbuf
  unfold brelse Bio.brelse
  dsimp only
  simp only [Cache.set_buf_self, Bcache.set_buf_self]
  split_ifs
  · refine ⟨rfl, ?_⟩
    rw [List.map_cons, List.map_erase (Option.some_injective _)]
    exact hring.moveFront (List.mem_map_of_mem (a.mem_lru i))
  · exact ⟨rfl, hring⟩

theorem bpin_refines (h : Refines c a) (i : Fin nbuf) : Refines (bpin c i) (Bio.bpin a i) := by
  unfold bpin Bio.bpin
  rw [h.buf]
  exact h.set i _

theorem bunpin_refines (h : Refines c a) (i : Fin nbuf) : Refines (bunpin c i) (Bio.bunpin a i) := by
  unfold bunpin Bio.bunpin
  rw [h.buf]
  exact h.set i _

end Refines

/-! ### The calls in any interleaving -/

/-- The cache with the calls' ghost state: the references `bget` gave out that `brelse` has not
taken back, the pins `bpin` took that `bunpin` has not dropped, and when each buffer was last
moved to the front, on a clock that each move advances. -/
structure Sys (D : Type*) where
  bc : Cache D
  refs : Fin nbuf → ℕ
  pins : Fin nbuf → ℕ
  moved : Fin nbuf → ℕ
  clock : ℕ

/-- A call on the buffer cache. -/
inductive Action
  /-- `bget(dev, blockno)`, the part under `bcache.lock`. -/
  | get (dev blockno : ℕ)
  /-- The rest of `bread` by a holder of the buffer. -/
  | read (i : Fin nbuf)
  /-- `brelse`, by a holder. -/
  | rel (i : Fin nbuf)
  /-- `bpin`, by a holder (`log_write`). -/
  | pin (i : Fin nbuf)
  /-- `bunpin`, dropping a pin (`install_trans`). -/
  | unpin (i : Fin nbuf)

/-- One call.  `brelse` panics unless its caller holds the buffer's sleep lock, which only a
`bget` gives; `bpin` is called on a buffer the log holds, and `bunpin` once for each `bpin`. -/
def step (disk : ℕ → D) (s : Sys D) : Action → Option (Sys D)
  | .get dev blockno =>
    match bget s.bc dev blockno with
    | .ok (bc, i) => some { s with bc, refs := Function.update s.refs i (s.refs i + 1) }
    | .error _ => none
  | .read i => if 0 < s.refs i then some { s with bc := bread s.bc disk i } else none
  | .rel i =>
    if 0 < s.refs i then
      let bc := brelse s.bc i
      -- `brelse` moved the buffer to the front just when it dropped the last reference
      let moves := (bc.buf i).refcnt = 0
      some { bc, refs := Function.update s.refs i (s.refs i - 1), pins := s.pins
             moved := if moves then Function.update s.moved i s.clock else s.moved
             clock := if moves then s.clock + 1 else s.clock }
    else none
  | .pin i =>
    if 0 < s.refs i then
      some { s with bc := bpin s.bc i, pins := Function.update s.pins i (s.pins i + 1) }
    else none
  | .unpin i =>
    if 0 < s.pins i then
      some { s with bc := bunpin s.bc i, pins := Function.update s.pins i (s.pins i - 1) }
    else none

/-- After `binit`, which linked buffer `i` in at time `i`. -/
def init (data : D) : Sys D where
  bc := binit data
  refs := fun _ => 0
  pins := fun _ => 0
  moved := Fin.val
  clock := nbuf

/-- What every reachable state keeps: the pointers are the cycle of a list on which each buffer
in use is found for its block and which runs in order of the last moves to the front, and the
reference counts count the references and pins held. -/
structure Inv (s : Sys D) : Prop where
  abs : ∃ a, Refines s.bc a ∧ a.Found ∧ a.Recency s.moved
  counted : ∀ i, (s.bc.buf i).refcnt = s.refs i + s.pins i
  past : ∀ i, s.moved i < s.clock

section Inv

variable {s : Sys D} {i : Fin nbuf}

theorem inv_init (data : D) : Inv (init data) where
  abs := ⟨_, binit_refines data, found_binit data, recency_binit data⟩
  counted _ := rfl
  past i := i.isLt

theorem Inv.get (hi : Inv s) {dev blockno : ℕ} {bc : Cache D}
    (h : bget s.bc dev blockno = .ok (bc, i)) :
    Inv { s with bc, refs := Function.update s.refs i (s.refs i + 1) } := by
  obtain ⟨a, hr, hf, hrec⟩ := hi.abs
  obtain ⟨a', ha, hr'⟩ := hr.bget h
  obtain ⟨hlru, hcnt⟩ := bget_lru_refcnt ha
  refine ⟨⟨a', hr', hf.bget ha, by rw [Bcache.Recency, hlru]; exact hrec⟩, fun k => ?_, hi.past⟩
  rw [hr'.buf]
  rcases eq_or_ne k i with rfl | hk
  · rw [hcnt, ← hr.buf, hi.counted]
    simp
    omega
  · rw [((bget_buf_ne ha hk).1), ← hr.buf, hi.counted]
    simp [hk]

theorem Inv.read (hi : Inv s) (disk : ℕ → D) (hpos : 0 < s.refs i) :
    Inv { s with bc := bread s.bc disk i } := by
  obtain ⟨a, hr, hf, hrec⟩ := hi.abs
  have hr' := bread_refines hr disk i
  have hin : (a.buf i).InUse := .inr (by rw [← hr.buf, hi.counted]; omega)
  refine ⟨⟨_, hr', hf.bread disk hin, by rw [Bcache.Recency, bread_lru]; exact hrec⟩,
    fun k => ?_, hi.past⟩
  rw [hr'.buf, (bread_buf a disk i k).2.2.1, ← hr.buf]
  exact hi.counted k

theorem Inv.rel (hi : Inv s) (hpos : 0 < s.refs i) :
    Inv { bc := brelse s.bc i, refs := Function.update s.refs i (s.refs i - 1), pins := s.pins
          moved := if ((brelse s.bc i).buf i).refcnt = 0 then Function.update s.moved i s.clock
            else s.moved
          clock := if ((brelse s.bc i).buf i).refcnt = 0 then s.clock + 1 else s.clock } := by
  obtain ⟨a, hr, hf, hrec⟩ := hi.abs
  have hr' := brelse_refines hr i
  have hin : 0 < (a.buf i).refcnt := by rw [← hr.buf, hi.counted]; omega
  have hrec' := hrec.brelse hi.past i
  rw [← hr'.buf] at hrec'
  refine ⟨⟨_, hr', hf.brelse hin, hrec'⟩, fun k => ?_, fun k => ?_⟩
  · rw [hr'.buf, brelse_buf]
    rcases eq_or_ne k i with rfl | hk
    · simp only [Bcache.set_buf_self, Function.update_self]
      rw [← hr.buf, hi.counted]
      omega
    · simp only [Bcache.set_buf_ne _ _ hk, Function.update_of_ne hk]
      rw [← hr.buf, hi.counted]
  · have := hi.past k
    split_ifs
    · rcases eq_or_ne k i with rfl | hk
      · simp
      · simp only [Function.update_of_ne hk]
        omega
    · exact this

theorem Inv.pin (hi : Inv s) (hpos : 0 < s.refs i) :
    Inv { s with bc := bpin s.bc i, pins := Function.update s.pins i (s.pins i + 1) } := by
  obtain ⟨a, hr, hf, hrec⟩ := hi.abs
  have hr' := bpin_refines hr i
  have hin : (a.buf i).InUse := .inr (by rw [← hr.buf, hi.counted]; omega)
  refine ⟨⟨_, hr', hf.bpin hin, hrec⟩, fun k => ?_, hi.past⟩
  rw [hr'.buf]
  rcases eq_or_ne k i with rfl | hk
  · simp only [Bio.bpin, Bcache.set_buf_self, Function.update_self]
    rw [← hr.buf, hi.counted]
    omega
  · simp only [Bio.bpin, Bcache.set_buf_ne _ _ hk, Function.update_of_ne hk]
    rw [← hr.buf, hi.counted]

theorem Inv.unpin (hi : Inv s) (hpos : 0 < s.pins i) :
    Inv { s with bc := bunpin s.bc i, pins := Function.update s.pins i (s.pins i - 1) } := by
  obtain ⟨a, hr, hf, hrec⟩ := hi.abs
  have hr' := bunpin_refines hr i
  refine ⟨⟨_, hr', hf.bunpin, hrec⟩, fun k => ?_, hi.past⟩
  rw [hr'.buf]
  rcases eq_or_ne k i with rfl | hk
  · simp only [Bio.bunpin, Bcache.set_buf_self, Function.update_self]
    rw [← hr.buf, hi.counted]
    omega
  · simp only [Bio.bunpin, Bcache.set_buf_ne _ _ hk, Function.update_of_ne hk]
    rw [← hr.buf, hi.counted]

theorem inv_step (disk : ℕ → D) {s' : Sys D} (hi : Inv s) {act : Action}
    (h : step disk s act = some s') : Inv s' := by
  cases act with
  | get dev blockno =>
    simp only [step] at h
    split at h
    · cases h
      exact hi.get ‹_›
    · cases h
  | read i =>
    simp only [step] at h
    split_ifs at h with hpos
    cases h
    exact hi.read disk hpos
  | rel i =>
    simp only [step] at h
    by_cases hpos : 0 < s.refs i
    · rw [if_pos hpos] at h
      cases h
      exact hi.rel hpos
    · rw [if_neg hpos] at h
      cases h
  | pin i =>
    simp only [step] at h
    split_ifs at h with hpos
    cases h
    exact hi.pin hpos
  | unpin i =>
    simp only [step] at h
    split_ifs at h with hpos
    cases h
    exact hi.unpin hpos

theorem inv_of_reachable (disk : ℕ → D) (data : D) {s : Sys D}
    (hs : Steps.Reachable (step disk) (init data) s) : Inv s :=
  Steps.Reachable.inv (inv_init data) (fun _ _ _ hi h => inv_step disk hi h) hs

/-! ### What every reachable state keeps -/

/-- The pointers form one cycle from the head through every buffer, each exactly once. -/
theorem Inv.ring (hi : Inv s) :
    ∃ l : List (Fin nbuf), l.Perm (List.finRange nbuf) ∧ s.bc.links.Ring none (l.map some) := by
  obtain ⟨a, hr, -⟩ := hi.abs
  exact ⟨a.lru, a.lru_perm, hr.ring⟩

/-- So `b->next->prev == b` and `b->prev->next == b`, for the head and every buffer. -/
theorem Inv.links_inverse (hi : Inv s) (x : Option (Fin nbuf)) :
    s.bc.links.prev (s.bc.links.next x) = x ∧ s.bc.links.next (s.bc.links.prev x) = x := by
  obtain ⟨l, hl, hring⟩ := hi.ring
  have hx : x ∈ none :: l.map some := by
    cases x with
    | none => exact List.mem_cons_self ..
    | some i =>
      exact List.mem_cons_of_mem _ (List.mem_map_of_mem (hl.mem_iff.2 (List.mem_finRange i)))
  exact ⟨hring.prev_next hx, hring.next_prev hx⟩

theorem Inv.unique (hi : Inv s) {j : Fin nbuf} (hin : (s.bc.buf i).InUse)
    (hjn : (s.bc.buf j).InUse) (hd : (s.bc.buf i).dev = (s.bc.buf j).dev)
    (hb : (s.bc.buf i).blockno = (s.bc.buf j).blockno) : i = j := by
  obtain ⟨a, hr, hf, -⟩ := hi.abs
  rw [hr.buf] at hin hjn hd hb
  exact hf.unique hin hjn hd hb

/-- `bget` of a block that a buffer in use carries returns that buffer. -/
theorem Inv.bget_cached (hi : Inv s) {dev blockno : ℕ} (hin : (s.bc.buf i).InUse)
    (hc : s.bc.Caches dev blockno i = true) : ∃ c', bget s.bc dev blockno = .ok (c', i) := by
  obtain ⟨a, hr, hf, -⟩ := hi.abs
  rw [hr.caches] at hc
  rw [hr.buf] at hin
  have hci : (a.buf i).dev = dev ∧ (a.buf i).blockno = blockno := by
    simpa [Bcache.Caches] using hc
  have hfind := hf i hin
  rw [hci.1, hci.2] at hfind
  rw [bget_eq hr, bget_of_find hfind]
  exact ⟨_, rfl⟩

/-- A buffer `bget` recycles has no references, and was moved to the front before every other
buffer with none. -/
theorem Inv.bget_recycled (hi : Inv s) {dev blockno : ℕ} {c' : Cache D}
    (h : bget s.bc dev blockno = .ok (c', i)) (hc : ∀ k, s.bc.Caches dev blockno k = false) :
    (s.bc.buf i).refcnt = 0 ∧ ∀ j, j ≠ i → (s.bc.buf j).refcnt = 0 → s.moved i < s.moved j := by
  obtain ⟨a, hr, -, hrec⟩ := hi.abs
  obtain ⟨a', ha, -⟩ := hr.bget h
  rw [hr.caches] at hc
  rw [hr.buf]
  exact ⟨(bget_recycle ha hc).1, fun j hji hj => hrec.bget_least ha hc hj hji⟩

end Inv

/-- In every state the calls reach, the pointers form one circular doubly linked list through
the head and all `NBUF` buffers; no two buffers in use carry the same block; `bget` of a block
that a buffer in use carries returns that buffer; and a block that no buffer carries gets the
buffer with no references that was moved to the front longest ago. -/
theorem bcache_of_reachable (disk : ℕ → D) (data : D) {s : Sys D}
    (hs : Steps.Reachable (step disk) (init data) s) :
    (∃ l : List (Fin nbuf), l.Perm (List.finRange nbuf) ∧ s.bc.links.Ring none (l.map some)) ∧
    (∀ x, s.bc.links.prev (s.bc.links.next x) = x ∧ s.bc.links.next (s.bc.links.prev x) = x) ∧
    (∀ i j, (s.bc.buf i).InUse → (s.bc.buf j).InUse → (s.bc.buf i).dev = (s.bc.buf j).dev →
      (s.bc.buf i).blockno = (s.bc.buf j).blockno → i = j) ∧
    (∀ dev blockno i, (s.bc.buf i).InUse → s.bc.Caches dev blockno i = true →
      ∃ c', bget s.bc dev blockno = .ok (c', i)) ∧
    (∀ dev blockno c' i, bget s.bc dev blockno = .ok (c', i) →
      (∀ k, s.bc.Caches dev blockno k = false) →
      (s.bc.buf i).refcnt = 0 ∧ ∀ j, j ≠ i → (s.bc.buf j).refcnt = 0 → s.moved i < s.moved j) := by
  have hi := inv_of_reachable disk data hs
  exact ⟨hi.ring, hi.links_inverse, fun _ _ => hi.unique, fun _ _ _ => hi.bget_cached,
    fun _ _ _ _ => hi.bget_recycled⟩

/-- Recycling follows the last moves to the front, not the last releases.  Thirty rounds of
`bget`/`brelse` of blocks 1 to 30 leave every buffer released once, buffer 0 first; then block 1
is got again (it is in buffer 0), pinned, released and unpinned.  That `brelse` is the last
release of all, but it leaves the pin's reference and does not move buffer 0, and `bunpin` drops
the count to zero without moving it either: with no references anywhere, the next uncached
block recycles buffer 0, the buffer released most recently, not buffer 1, released longest ago. -/
theorem bunpin_recycles_recent :
    ∃ s, Steps.run (step fun _ : ℕ => ()) (init ())
        ((List.finRange nbuf).flatMap (fun k => [.get 1 ((k : ℕ) + 1), .rel k]) ++
          [.get 1 1, .pin 0, .rel 0, .unpin 0]) = some s ∧
      (∀ k, (s.bc.buf k).refcnt = 0) ∧ (∀ k, s.bc.Caches 1 31 k = false) ∧
      (bget s.bc 1 31).toOption.map Prod.snd = some 0 :=
  Steps.exists_of_any (by decide +kernel)

/-- After a block is read into a recycled buffer and released, the pointers still undo each
other. -/
theorem links_inverse_after_release :
    ∃ s, Steps.run (step fun _ : ℕ => ()) (init ()) [.get 1 7, .read 0, .rel 0] = some s ∧
      ∀ x, s.bc.links.prev (s.bc.links.next x) = x ∧ s.bc.links.next (s.bc.links.prev x) = x := by
  obtain ⟨s, hs, -⟩ : ∃ s, Steps.run (step fun _ : ℕ => ()) (init ()) [.get 1 7, .read 0, .rel 0] =
      some s ∧ True := Steps.exists_of_any (by decide +kernel)
  exact ⟨s, hs, (bcache_of_reachable (fun _ => ()) () (Steps.reachable_of_run hs)).2.1⟩

end Xv6.Bio.Linked
