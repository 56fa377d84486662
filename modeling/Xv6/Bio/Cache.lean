import Xv6.Param
import Xv6.Lib.DList

/-!
# The buffer cache (`kernel/bio.c`)

`NBUF` buffers, each caching one `(dev, blockno)` with a reference count, on a list ordered from
most to least recently used.  `bget` returns the buffer that caches the block, or recycles the
least recently used buffer with no references; `brelse` drops a reference and moves a buffer
nobody refers to any more to the front; `bpin` and `bunpin` add and drop a reference for the log.

The list `lru` runs from `bcache.head.next` to `bcache.head.prev`; it is always a permutation of
the buffers (`Bcache.lru_perm`), which is what the doubly linked list through `head` guarantees.
`refcnt` is a `uint`; it is modelled in `ℕ`, and no modelled caller drops it below zero.

* `bget_found`, `bget_recycle`: what `bget` does in each of its two searches;
* `bget_refcnt_pos`, `bget_keeps`: a buffer that has a reference is never recycled.
-/

namespace Xv6.Bio

/-- A `struct buf`, less its sleep lock and list links. -/
structure Buf (D : Type*) where
  /-- Has data been read from disk? -/
  valid : Bool
  dev : ℕ
  blockno : ℕ
  refcnt : ℕ
  data : D

/-- `bcache`: the buffers and their order of use. -/
structure Bcache (D : Type*) where
  buf : Fin nbuf → Buf D
  /-- The buffers from most to least recently used. -/
  lru : List (Fin nbuf)
  lru_perm : lru.Perm (List.finRange nbuf)

variable {D : Type*}

/-- The cache with buffer `i` replaced. -/
def Bcache.set (c : Bcache D) (i : Fin nbuf) (b : Buf D) : Bcache D :=
  { c with buf := Function.update c.buf i b }

@[simp] theorem Bcache.set_buf_self (c : Bcache D) (i : Fin nbuf) (b : Buf D) :
    (c.set i b).buf i = b := Function.update_self ..

@[simp] theorem Bcache.set_buf_ne (c : Bcache D) {i j : Fin nbuf} (b : Buf D) (h : j ≠ i) :
    (c.set i b).buf j = c.buf j := Function.update_of_ne h ..

@[simp] theorem Bcache.set_lru (c : Bcache D) (i : Fin nbuf) (b : Buf D) :
    (c.set i b).lru = c.lru := rfl

/-- `binit`: every buffer empty (`dev = blockno = 0`, not valid, no references) and pushed at
the front in turn, so that the last one is the most recently used. -/
def binit (data : D) : Bcache D where
  buf := fun _ => { valid := false, dev := 0, blockno := 0, refcnt := 0, data := data }
  lru := (List.finRange nbuf).reverse
  lru_perm := List.reverse_perm _

/-- Buffer `i` caches `(dev, blockno)`. -/
def Bcache.Caches (c : Bcache D) (dev blockno : ℕ) (i : Fin nbuf) : Bool :=
  (c.buf i).dev == dev && (c.buf i).blockno == blockno

/-- The part of `bget` under `bcache.lock`: the buffer it returns (with its reference counted),
or the panic `"bget: no buffers"`. -/
def bget (c : Bcache D) (dev blockno : ℕ) : Except String (Bcache D × Fin nbuf) :=
  -- Is the block already cached?
  match c.lru.find? (c.Caches dev blockno) with
  | some i => .ok (c.set i { c.buf i with refcnt := (c.buf i).refcnt + 1 }, i)
  | none =>
    -- Recycle the least recently used unused buffer.
    match c.lru.reverse.find? (fun i => (c.buf i).refcnt == 0) with
    | some i =>
      .ok (c.set i { c.buf i with dev := dev, blockno := blockno, valid := false, refcnt := 1 }, i)
    | none => .error "bget: no buffers"

/-- The rest of `bread` once it holds the buffer: read the block from disk if not valid. -/
def bread (c : Bcache D) (disk : ℕ → D) (i : Fin nbuf) : Bcache D :=
  if (c.buf i).valid then c
  else c.set i { c.buf i with data := disk (c.buf i).blockno, valid := true }

/-- `brelse`: drop a reference; a buffer nobody refers to moves to the front. -/
def brelse (c : Bcache D) (i : Fin nbuf) : Bcache D :=
  let c := c.set i { c.buf i with refcnt := (c.buf i).refcnt - 1 }
  if (c.buf i).refcnt = 0 then
    { c with
      lru := i :: c.lru.erase i
      lru_perm := (List.perm_cons_erase (c.lru_perm.mem_iff.2 (List.mem_finRange i))).symm.trans
        c.lru_perm }
  else c

/-- `bpin`: the log's reference. -/
def bpin (c : Bcache D) (i : Fin nbuf) : Bcache D :=
  c.set i { c.buf i with refcnt := (c.buf i).refcnt + 1 }

/-- `bunpin`. -/
def bunpin (c : Bcache D) (i : Fin nbuf) : Bcache D :=
  c.set i { c.buf i with refcnt := (c.buf i).refcnt - 1 }

/-! ### What each call does to the buffers -/

theorem brelse_buf (c : Bcache D) (i k : Fin nbuf) :
    (brelse c i).buf k = (c.set i { c.buf i with refcnt := (c.buf i).refcnt - 1 }).buf k := by
  unfold brelse
  dsimp only
  split <;> rfl

/-- `bread` changes only the data of the buffer it reads, and makes it valid. -/
theorem bread_buf (c : Bcache D) (disk : ℕ → D) (i k : Fin nbuf) :
    ((bread c disk i).buf k).dev = (c.buf k).dev ∧
      ((bread c disk i).buf k).blockno = (c.buf k).blockno ∧
      ((bread c disk i).buf k).refcnt = (c.buf k).refcnt ∧
      ((bread c disk i).buf k).valid = (decide (k = i) || (c.buf k).valid) := by
  unfold bread
  by_cases hk : k = i
  · subst hk
    split_ifs with hv <;> simp [hv]
  · split_ifs <;> simp [hk]

/-! ### What `bget` does -/

section Bget

variable {c c' : Bcache D} {dev blockno : ℕ} {i : Fin nbuf}

/-- When some buffer caches the block, `bget` counts a reference to it and changes nothing
else. -/
theorem bget_found (h : bget c dev blockno = .ok (c', i))
    (hc : ∃ j, c.Caches dev blockno j = true) :
    c.Caches dev blockno i = true ∧
      c' = c.set i { c.buf i with refcnt := (c.buf i).refcnt + 1 } := by
  unfold bget at h
  split at h
  · rename_i j hj
    cases h
    exact ⟨List.find?_some hj, rfl⟩
  · rename_i hnone
    obtain ⟨j, hj⟩ := hc
    rw [List.find?_eq_none] at hnone
    exact absurd hj (hnone j (c.lru_perm.mem_iff.2 (List.mem_finRange j)))

/-- When no buffer caches the block, `bget` takes one with no references for it. -/
theorem bget_recycle (h : bget c dev blockno = .ok (c', i))
    (hc : ∀ j, c.Caches dev blockno j = false) :
    (c.buf i).refcnt = 0 ∧
      c' = c.set i { c.buf i with dev := dev, blockno := blockno, valid := false, refcnt := 1 } := by
  unfold bget at h
  split at h
  · rename_i j hj
    have := hc j
    rw [List.find?_some hj] at this
    cases this
  · split at h
    · rename_i j hj
      cases h
      exact ⟨by simpa using List.find?_some hj, rfl⟩
    · cases h

/-- Either way `bget` leaves every other buffer as it was and keeps the order of use. -/
theorem bget_buf_ne (h : bget c dev blockno = .ok (c', i)) {j : Fin nbuf} (hj : j ≠ i) :
    c'.buf j = c.buf j ∧ c'.lru = c.lru := by
  unfold bget at h
  split at h
  · cases h
    exact ⟨Bcache.set_buf_ne _ _ hj, rfl⟩
  · split at h
    · cases h
      exact ⟨Bcache.set_buf_ne _ _ hj, rfl⟩
    · cases h

/-- A buffer with a reference is never recycled: `bget` hands it out only for the block it
caches. -/
theorem bget_refcnt_pos (h : bget c dev blockno = .ok (c', i)) (hpos : 0 < (c.buf i).refcnt) :
    c.Caches dev blockno i = true ∧ (c'.buf i).refcnt = (c.buf i).refcnt + 1 := by
  by_cases hc : ∃ j, c.Caches dev blockno j = true
  · obtain ⟨hi, rfl⟩ := bget_found h hc
    exact ⟨hi, by simp⟩
  · have hc' : ∀ j, c.Caches dev blockno j = false := by
      simpa using hc
    obtain ⟨h0, -⟩ := bget_recycle h hc'
    omega

/-- Nor does `bget` change what a buffer with a reference caches, or its data. -/
theorem bget_keeps (h : bget c dev blockno = .ok (c', i)) {k : Fin nbuf}
    (hpos : 0 < (c.buf k).refcnt) :
    (c'.buf k).dev = (c.buf k).dev ∧ (c'.buf k).blockno = (c.buf k).blockno ∧
      (c'.buf k).valid = (c.buf k).valid ∧ (c'.buf k).data = (c.buf k).data := by
  rcases eq_or_ne k i with rfl | hki
  · obtain ⟨hk, -⟩ := bget_refcnt_pos h hpos
    obtain ⟨-, rfl⟩ := bget_found h ⟨k, hk⟩
    simp
  · rw [(bget_buf_ne h hki).1]
    exact ⟨rfl, rfl, rfl, rfl⟩

end Bget

/-! ### One copy of each block in use -/

/-- A buffer is in use while it holds a block's contents or someone holds a reference to it. -/
def Buf.InUse (b : Buf D) : Prop := b.valid = true ∨ 0 < b.refcnt

/-- Every buffer in use is the one that `bget`'s lookup finds for its block: any other buffer
that carries the same block stands after it on the list. -/
def Bcache.Found (c : Bcache D) : Prop :=
  ∀ j, (c.buf j).InUse → c.lru.find? (c.Caches (c.buf j).dev (c.buf j).blockno) = some j

/-- The list runs from the buffer moved to the front last to the one moved there first. -/
def Bcache.Recency (c : Bcache D) (moved : Fin nbuf → ℕ) : Prop :=
  c.lru.Pairwise fun i j => moved j < moved i

section Found

variable {c c' : Bcache D} {dev blockno : ℕ} {i : Fin nbuf}

theorem Bcache.lru_nodup (c : Bcache D) : c.lru.Nodup :=
  c.lru_perm.nodup_iff.2 (List.nodup_finRange nbuf)

theorem Bcache.mem_lru (c : Bcache D) (i : Fin nbuf) : i ∈ c.lru :=
  c.lru_perm.mem_iff.2 (List.mem_finRange i)

theorem Bcache.caches_self (c : Bcache D) (i : Fin nbuf) :
    c.Caches (c.buf i).dev (c.buf i).blockno i = true := by
  simp [Bcache.Caches]

/-- A write that leaves the block a buffer carries alone changes no lookup. -/
theorem Bcache.caches_set {b : Buf D} (hd : b.dev = (c.buf i).dev)
    (hb : b.blockno = (c.buf i).blockno) : (c.set i b).Caches = c.Caches := by
  funext dev blockno k
  rcases eq_or_ne k i with rfl | hk
  · simp [Bcache.Caches, hd, hb]
  · simp [Bcache.Caches, hk]

/-- What `bget` does, with the searches it makes: it finds the block on the list and counts a
reference, or finds it nowhere and recycles the last buffer on the list with no references. -/
theorem bget_cases (h : bget c dev blockno = .ok (c', i)) :
    (c.lru.find? (c.Caches dev blockno) = some i ∧
        c' = c.set i { c.buf i with refcnt := (c.buf i).refcnt + 1 }) ∨
      (c.lru.find? (c.Caches dev blockno) = none ∧
        c.lru.reverse.find? (fun k => (c.buf k).refcnt == 0) = some i ∧
        c' = c.set i { c.buf i with dev := dev, blockno := blockno, valid := false, refcnt := 1 }) := by
  unfold bget at h
  split at h
  · rename_i j hj
    cases h
    exact .inl ⟨hj, rfl⟩
  · rename_i hnone
    split at h
    · rename_i j hj
      cases h
      exact .inr ⟨hnone, hj, rfl⟩
    · cases h

/-- Whether a cache keeps its buffers in use findable depends on its buffers and the order of its
list only. -/
theorem Bcache.found_of_buf_eq {d : Bcache D} (hbuf : d.buf = c.buf)
    (h : ∀ j, (c.buf j).InUse → d.lru.find? (c.Caches (c.buf j).dev (c.buf j).blockno) = some j) :
    d.Found := by
  have hc : d.Caches = c.Caches := by
    unfold Bcache.Caches
    rw [hbuf]
  intro j hj
  rw [hc, hbuf]
  exact h j (hbuf ▸ hj)

/-- `bget` keeps the order of use, and counts one more reference to the buffer it returns (a
recycled buffer had none). -/
theorem bget_lru_refcnt (h : bget c dev blockno = .ok (c', i)) :
    c'.lru = c.lru ∧ (c'.buf i).refcnt = (c.buf i).refcnt + 1 := by
  rcases bget_cases h with ⟨-, rfl⟩ | ⟨-, hfind, rfl⟩
  · simp
  · have h0 : (c.buf i).refcnt = 0 := by simpa using List.find?_some hfind
    simp [h0]

/-- A lookup that finds the block returns the buffer it finds. -/
theorem bget_of_find (h : c.lru.find? (c.Caches dev blockno) = some i) :
    bget c dev blockno = .ok (c.set i { c.buf i with refcnt := (c.buf i).refcnt + 1 }, i) := by
  unfold bget
  rw [h]

theorem bread_lru (c : Bcache D) (disk : ℕ → D) (i : Fin nbuf) : (bread c disk i).lru = c.lru := by
  unfold bread
  split_ifs <;> rfl

theorem found_binit (data : D) : (binit data).Found := by
  rintro j (h | h) <;> simp [binit] at h

/-- Two buffers in use never carry the same block. -/
theorem Bcache.Found.unique (hf : c.Found) {j : Fin nbuf} (hi : (c.buf i).InUse)
    (hj : (c.buf j).InUse) (hd : (c.buf i).dev = (c.buf j).dev)
    (hb : (c.buf i).blockno = (c.buf j).blockno) : i = j := by
  have hfi := hf i hi
  rw [hd, hb, hf j hj] at hfi
  exact (Option.some.inj hfi).symm

/-- A write that keeps the block a buffer carries keeps every lookup; the buffer written must
still be found if it is in use. -/
theorem Bcache.Found.set (hf : c.Found) {b : Buf D} (hd : b.dev = (c.buf i).dev)
    (hb : b.blockno = (c.buf i).blockno)
    (hi : b.InUse → c.lru.find? (c.Caches (c.buf i).dev (c.buf i).blockno) = some i) :
    (c.set i b).Found := by
  intro j hj
  rw [Bcache.caches_set hd hb, Bcache.set_lru]
  rcases eq_or_ne j i with rfl | hji
  · simpa [hd, hb] using hi (by simpa using hj)
  · simpa [hji] using hf j (by simpa [hji] using hj)

theorem Bcache.Found.bget (hf : c.Found) (h : bget c dev blockno = .ok (c', i)) : c'.Found := by
  rcases bget_cases h with ⟨hfind, rfl⟩ | ⟨hnone, -, rfl⟩
  · -- found: the block it looked for is the one buffer `i` carries
    have hci : (c.buf i).dev = dev ∧ (c.buf i).blockno = blockno := by
      simpa [Bcache.Caches] using List.find?_some hfind
    refine hf.set rfl rfl fun _ => ?_
    rw [hci.1, hci.2]
    exact hfind
  · -- recycled: no buffer carried the block, so `i` is the only one that does now
    have hno : ∀ k, c.Caches dev blockno k = false := fun k => by
      simpa using List.find?_eq_none.1 hnone k (c.mem_lru k)
    intro j hj
    rcases eq_or_ne j i with rfl | hji
    · refine DList.find?_of_unique (c.mem_lru j) (by simp [Bcache.Caches]) fun k hk => ?_
      by_contra hkj
      have hck : c.Caches dev blockno k = true := by simpa [Bcache.Caches, hkj] using hk
      simp [hno k] at hck
    · rw [Bcache.set_buf_ne _ _ hji] at hj ⊢
      refine DList.find?_of_imp (hf j hj) (by simp [Bcache.Caches, hji]) fun k hk => ?_
      rcases eq_or_ne k i with rfl | hki
      · simp only [Bcache.Caches, Bcache.set_buf_self, Bool.and_eq_true, beq_iff_eq] at hk
        have := hno j
        simp [Bcache.Caches, ← hk.1, ← hk.2] at this
      · simpa [Bcache.Caches, hki] using hk

theorem Bcache.Found.bread (hf : c.Found) (disk : ℕ → D) (hi : (c.buf i).InUse) :
    (bread c disk i).Found := by
  unfold Bio.bread
  split_ifs
  · exact hf
  · exact hf.set rfl rfl fun _ => hf i hi

theorem Bcache.Found.bpin (hf : c.Found) (hi : (c.buf i).InUse) : (bpin c i).Found :=
  hf.set rfl rfl fun _ => hf i hi

theorem Bcache.Found.bunpin (hf : c.Found) : (bunpin c i).Found :=
  hf.set rfl rfl fun hb => hf i (hb.imp id fun h => by simp at h; omega)

/-- Moving a buffer in use to the front keeps every lookup: no other buffer in use carries its
block, and the buffers that do stand after it already. -/
theorem Bcache.Found.brelse (hf : c.Found) (hi : 0 < (c.buf i).refcnt) : (brelse c i).Found := by
  have hset := hf.set (b := { c.buf i with refcnt := (c.buf i).refcnt - 1 }) rfl rfl
    fun _ => hf i (.inr hi)
  unfold Bio.brelse
  dsimp only
  split_ifs
  · refine Bcache.found_of_buf_eq (c := c.set i { c.buf i with refcnt := (c.buf i).refcnt - 1 }) rfl
      fun j hj => ?_
    dsimp only at hj ⊢
    rw [Bcache.caches_set (b := { c.buf i with refcnt := (c.buf i).refcnt - 1 }) rfl rfl]
    rcases eq_or_ne j i with rfl | hji
    · simp [Bcache.Caches]
    · rw [Bcache.set_buf_ne _ _ hji] at hj ⊢
      -- `i` carries another block than `j`, or both would be found for it
      have hij : c.Caches (c.buf j).dev (c.buf j).blockno i = false := by
        by_contra hc
        simp only [Bcache.Caches, Bool.not_eq_false, Bool.and_eq_true, beq_iff_eq] at hc
        exact hji (hf.unique (.inr hi) hj hc.1 hc.2).symm
      rw [List.find?_cons_of_neg (by simp [hij]), DList.find?_erase hij]
      exact hf j hj
  · exact hset

/-! ### The order of the list -/

theorem recency_binit (data : D) : (binit data).Recency Fin.val := by
  simpa [binit, Bcache.Recency, List.pairwise_reverse] using List.pairwise_lt_finRange nbuf

/-- `brelse` keeps the order when it moves a buffer to the front at a time later than any
before. -/
theorem Bcache.Recency.brelse {moved : Fin nbuf → ℕ} (hr : c.Recency moved) {clock : ℕ}
    (hpast : ∀ k, moved k < clock) (i : Fin nbuf) :
    (Bio.brelse c i).Recency
      (if ((Bio.brelse c i).buf i).refcnt = 0 then Function.update moved i clock else moved) := by
  unfold Bio.brelse
  dsimp only
  split_ifs with h0
  · simp only [Bcache.Recency, List.pairwise_cons]
    have hmem : ∀ j ∈ c.lru.erase i, j ≠ i := fun j hj => ((c.lru_nodup.mem_erase_iff).1 hj).1
    refine ⟨fun j hj => by simp [hmem j hj, hpast j], ?_⟩
    refine (hr.sublist (List.erase_sublist ..)).imp_of_mem fun {a b} ha hb hab => ?_
    simpa [hmem a ha, hmem b hb] using hab
  · exact hr

/-- When the block is not cached, `bget` recycles, of the buffers nobody refers to, the one moved
to the front longest ago. -/
theorem Bcache.Recency.bget_least {moved : Fin nbuf → ℕ} (hr : c.Recency moved)
    (h : bget c dev blockno = .ok (c', i)) (hc : ∀ k, c.Caches dev blockno k = false)
    {j : Fin nbuf} (hj : (c.buf j).refcnt = 0) (hji : j ≠ i) : moved i < moved j := by
  rcases bget_cases h with ⟨hfind, -⟩ | ⟨-, hfind, -⟩
  · exact absurd (List.find?_some hfind) (by simp [hc i])
  · obtain ⟨-, as, bs, hsplit, has⟩ := List.find?_eq_some_iff_append.1 hfind
    -- `j` is not skipped by the backward search, so it stands before `i` on the list
    have hjbs : j ∈ bs := by
      have hmem : j ∈ c.lru.reverse := by simpa using c.mem_lru j
      rw [hsplit] at hmem
      rcases List.mem_append.1 hmem with hja | hjb
      · simpa [hj] using has j hja
      · simpa [hji] using hjb
    have hrev : c.lru.reverse.Pairwise fun a b => moved a < moved b := List.pairwise_reverse.2 hr
    rw [hsplit] at hrev
    exact List.pairwise_cons.1 (List.pairwise_append.1 hrev).2.1 |>.1 j hjbs

end Found

end Xv6.Bio
