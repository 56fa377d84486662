import Xv6.Virtio

/-!
# The descriptors of the virtio driver over every run

Between critical sections each request of a waiting process holds a chain of three descriptors,
formatted for its buffer (`Holds`), and the chains of distinct processes are disjoint; every
other descriptor is free.  The head of each request is in exactly one place until its buffer is
marked done: published in the avail ring (`Sys.pending`), taken by the device (`Sys.taken`), or
finished in the used ring (`Disk.done`).  `Inv` gathers these facts.

* `Inv.length_inFlight`: three descriptors each, so at most two requests are on their way, and
  no ring of `NUM` entries overflows;
* `Inv.submit` (through `Inv.publish` or `Inv.sleep`), `Inv.finish`, `Inv.intr`, `Inv.take`,
  `Inv.complete`: each event keeps `Inv`, and none panics (`Inv.exec_ok`); the device's events
  only permute the heads on their way (`Inv.of_perm`);
* `inv_of_reachable`, and what it says (`Descriptors`, `descriptors_of_reachable`): the
  descriptors are the free ones and the chains, `free_chain` gives back exactly a chain, and an
  interrupt clears the buffers of exactly the finished heads.
-/

namespace Xv6.Virtio

variable {ι β : Type}

/-- The heads the driver has published and the device has not taken. -/
def Sys.pending (s : Sys ι β) : List ℕ :=
  Ring.window s.disk.avail.ring num s.lastAvail (gap s.disk.avail.idx s.lastAvail)

/-- The heads the device has finished and `virtio_disk_intr` has not looked at. -/
def Disk.done (d : Disk β) : List ℕ := Ring.window d.used.ring num d.usedIdx d.unseen

/-- The heads of the requests on their way: published, taken by the device, or finished. -/
def Sys.inFlight (s : Sys ι β) : List ℕ := s.pending ++ s.taken ++ s.disk.done

/-- The chain from a head, as `free_chain` and the device follow it. -/
def Disk.chainOf (d : Disk β) (h : ℕ) : List ℕ :=
  [h, (d.desc h).next, (d.desc (d.desc h).next).next]

/-- The chain `[i0, i1, i2]` of a request for `b` as `virtio_disk_rw` formats it: three
distinct descriptors in use, linked head, data, status; the data that of `b`, the status byte
that of the head, whose `info` records `b`. -/
structure Holds (d : Disk β) (b : β) (i0 i1 i2 : ℕ) : Prop where
  nodup : [i0, i1, i2].Nodup
  used : ∀ j ∈ [i0, i1, i2], j < num ∧ d.free j = false
  linked : Linked d i0 i1 i2
  op : (d.desc i0).addr = .op i0
  data : (d.desc i1).addr = .data b
  status : (d.desc i2).addr = .status i0
  info : (d.info i0).b = some b

/-- The state between critical sections. -/
structure Inv (s : Sys ι β) : Prop where
  bounds : s.disk.avail.idx < idxMod ∧ s.lastAvail < idxMod ∧ s.disk.used.idx < idxMod ∧
    s.disk.usedIdx < idxMod
  chain : ∀ p b idx, s.proc p = .wait b idx → ∃ i0 i1 i2, idx = [i0, i1, i2] ∧ Holds s.disk b i0 i1 i2
  disjoint : ∀ p q b b' idx idx', p ≠ q → s.proc p = .wait b idx → s.proc q = .wait b' idx' →
    ∀ i ∈ idx, i ∉ idx'
  owned : ∀ i < num, s.disk.free i = false → ∃ p b idx, s.proc p = .wait b idx ∧ i ∈ idx
  bufs : ∀ p q b, p ≠ q → (s.proc p).buf = some b → (s.proc q).buf ≠ some b
  nodup : s.inFlight.Nodup
  heads : ∀ h ∈ s.inFlight, ∃ p b idx, s.proc p = .wait b idx ∧ idx.head? = some h
  /-- A request is on its way exactly while its buffer belongs to the device. -/
  place : ∀ p b idx, s.proc p = .wait b idx → ∀ h ∈ idx.head?, (h ∈ s.inFlight ↔ s.disk.bdisk b)
  status : ∀ h ∈ s.disk.done, (s.disk.info h).status = 0

/-! ### Chains -/

section Holds

variable {d d' : Disk β} {b : β} {i0 i1 i2 : ℕ}

/-- A chain stays formatted while its descriptors, their `free` and its head's buffer stay. -/
theorem Holds.congr (h : Holds d b i0 i1 i2) (hdesc : ∀ j ∈ [i0, i1, i2], d'.desc j = d.desc j)
    (hfree : ∀ j ∈ [i0, i1, i2], d'.free j = d.free j) (hinfo : (d'.info i0).b = (d.info i0).b) :
    Holds d' b i0 i1 i2 := by
  have h0 := hdesc i0 (by simp)
  have h1 := hdesc i1 (by simp)
  have h2 := hdesc i2 (by simp)
  exact ⟨h.nodup, fun j hj => by rw [hfree j hj]; exact h.used j hj,
    ⟨by rw [h0]; exact h.linked.first, by rw [h1]; exact h.linked.second,
      by rw [h2]; exact h.linked.last⟩,
    by rw [h0]; exact h.op, by rw [h1]; exact h.data, by rw [h2]; exact h.status,
    by rw [hinfo]; exact h.info⟩

theorem Holds.chainOf (h : Holds d b i0 i1 i2) : d.chainOf i0 = [i0, i1, i2] := by
  rw [Disk.chainOf, h.linked.first.2, h.linked.second.2]

theorem Holds.not_free (h : Holds d b i0 i1 i2) {j : ℕ} (hj : j ∈ [i0, i1, i2]) :
    d.free j = false := (h.used j hj).2

end Holds

/-- A list of distinct numbers below `n` has at most `n` of them. -/
theorem length_le_of_nodup {l : List ℕ} {n : ℕ} (hnd : l.Nodup) (hl : ∀ x ∈ l, x < n) :
    l.length ≤ n := by
  have hsub : l.toFinset ⊆ Finset.range n := fun x hx =>
    Finset.mem_range.2 (hl x (List.mem_toFinset.1 hx))
  have := Finset.card_le_card hsub
  rwa [List.toFinset_card_of_nodup hnd, Finset.card_range] at this

section Inv

variable {s : Sys ι β}

/-- The waiting process whose request has head `h`. -/
theorem Inv.owner (hi : Inv s) {h : ℕ} (hh : h ∈ s.inFlight) :
    ∃ p b i1 i2, s.proc p = .wait b [h, i1, i2] ∧ Holds s.disk b h i1 i2 := by
  obtain ⟨p, b, idx, hp, hhead⟩ := hi.heads h hh
  obtain ⟨i0, i1, i2, rfl, hold⟩ := hi.chain p b idx hp
  cases hhead
  exact ⟨p, b, i1, i2, hp, hold⟩

/-- A descriptor of a chain is in use. -/
theorem Inv.not_free (hi : Inv s) {p : ι} {b : β} {idx : List ℕ} (hp : s.proc p = .wait b idx)
    {j : ℕ} (hj : j ∈ idx) : s.disk.free j = false := by
  obtain ⟨i0, i1, i2, rfl, hold⟩ := hi.chain p b idx hp
  exact hold.not_free hj

/-- A head on its way is in use. -/
theorem Inv.inFlight_not_free (hi : Inv s) {h : ℕ} (hh : h ∈ s.inFlight) : s.disk.free h = false := by
  obtain ⟨p, b, i1, i2, hp, hold⟩ := hi.owner hh
  exact hold.not_free (by simp)

/-- One waiting process per head. -/
theorem Inv.eq_of_head (hi : Inv s) {p q : ι} {b b' : β} {i1 i2 j1 j2 h : ℕ}
    (hp : s.proc p = .wait b [h, i1, i2]) (hq : s.proc q = .wait b' [h, j1, j2]) : p = q := by
  by_contra hpq
  exact hi.disjoint p q b b' _ _ hpq hp hq h (by simp) (by simp)

/-- The chains of the requests on their way are disjoint, three descriptors each, so at most
two requests are on their way. -/
theorem Inv.length_inFlight (hi : Inv s) : s.inFlight.length * 3 ≤ num := by
  have hchain : ∀ h ∈ s.inFlight, ∃ p b, s.proc p = .wait b (s.disk.chainOf h) ∧
      Holds s.disk b h ((s.disk.chainOf h).getD 1 0) ((s.disk.chainOf h).getD 2 0) := by
    intro h hh
    obtain ⟨p, b, i1, i2, hp, hold⟩ := hi.owner hh
    rw [hold.chainOf]
    exact ⟨p, b, hp, hold⟩
  have hnd : (s.inFlight.flatMap s.disk.chainOf).Nodup := by
    refine List.nodup_flatMap.2 ⟨fun h hh => ?_, hi.nodup.pairwise_of_forall_ne fun h hh h' hh' hne => ?_⟩
    · obtain ⟨p, b, -, hold⟩ := hchain h hh
      rw [hold.chainOf]
      exact hold.nodup
    · obtain ⟨p, b, hp, -⟩ := hchain h hh
      obtain ⟨q, b', hq, -⟩ := hchain h' hh'
      have hpq : p ≠ q := by
        rintro rfl
        rw [hp] at hq
        have hc := congrArg List.head? (Phase.wait.inj hq).2
        simp only [Disk.chainOf, List.head?_cons, Option.some.injEq] at hc
        exact hne hc
      exact fun i hi1 hi2 => hi.disjoint p q b b' _ _ hpq hp hq i hi1 hi2
  have hlt : ∀ x ∈ s.inFlight.flatMap s.disk.chainOf, x < num := by
    intro x hx
    obtain ⟨h, hh, hx⟩ := List.mem_flatMap.1 hx
    obtain ⟨p, b, -, hold⟩ := hchain h hh
    rw [hold.chainOf] at hx
    exact (hold.used x hx).1
  have := length_le_of_nodup hnd hlt
  simpa [List.length_flatMap, Disk.chainOf] using this

theorem Inv.length_pending (hi : Inv s) : s.pending.length < num := by
  have := hi.length_inFlight
  simp only [Sys.inFlight, List.length_append] at this
  unfold num at *
  omega

theorem Inv.length_done (hi : Inv s) : s.disk.done.length < num := by
  have := hi.length_inFlight
  simp only [Sys.inFlight, List.length_append] at this
  unfold num at *
  omega

end Inv

/-! ### The events -/

section Events

variable [DecidableEq ι] [DecidableEq β] {s : Sys ι β}

omit [DecidableEq β] in
/-- A process after an update of `proc` at `p`: `p` with its new phase, or another as before. -/
theorem update_eq_wait {f : ι → Phase β} {p q : ι} {x : Phase β} {b : β} {idx : List ℕ}
    (h : Function.update f p x q = .wait b idx) :
    (q = p ∧ x = .wait b idx) ∨ (q ≠ p ∧ f q = .wait b idx) := by
  by_cases hq : q = p
  · subst hq
    rw [Function.update_self] at h
    exact .inl ⟨rfl, h⟩
  · rw [Function.update_of_ne hq] at h
    exact .inr ⟨hq, h⟩

omit [DecidableEq β] in
theorem update_buf {f : ι → Phase β} {p q : ι} {x : Phase β} {b : β}
    (h : (Function.update f p x q).buf = some b) :
    (q = p ∧ x.buf = some b) ∨ (q ≠ p ∧ (f q).buf = some b) := by
  by_cases hq : q = p
  · subst hq
    rw [Function.update_self] at h
    exact .inl ⟨rfl, h⟩
  · rw [Function.update_of_ne hq] at h
    exact .inr ⟨hq, h⟩

omit [DecidableEq β] in
/-- An update at a process that waits on no chain, before or after, changes no waiting
process. -/
theorem update_wait_iff {f : ι → Phase β} {p q : ι} {x : Phase β} {b : β} {idx : List ℕ}
    (hp : ∀ b idx, f p ≠ .wait b idx) (hx : ∀ b idx, x ≠ .wait b idx) :
    Function.update f p x q = .wait b idx ↔ f q = .wait b idx := by
  by_cases hq : q = p
  · subst hq
    rw [Function.update_self]
    exact ⟨fun h => absurd h (hx b idx), fun h => absurd h (hp b idx)⟩
  · rw [Function.update_of_ne hq]

omit [DecidableEq β] in
/-- A new phase for `p` keeps the buffers of the processes distinct when its buffer, if any, is
no other process's. -/
theorem bufs_update {f : ι → Phase β} {p : ι} {x : Phase β}
    (hbufs : ∀ q r b, q ≠ r → (f q).buf = some b → (f r).buf ≠ some b)
    (hx : ∀ b, x.buf = some b → ∀ q, q ≠ p → (f q).buf ≠ some b) :
    ∀ q r b, q ≠ r → (Function.update f p x q).buf = some b →
      (Function.update f p x r).buf ≠ some b := by
  intro q r b hqr hq hr
  rcases update_buf hq with ⟨hqp, hxq⟩ | ⟨hqp, hq⟩
  · rcases update_buf hr with ⟨hrp, -⟩ | ⟨hrp, hr⟩
    · exact hqr (hqp.trans hrp.symm)
    · exact hx b hxq r hrp hr
  · rcases update_buf hr with ⟨-, hxr⟩ | ⟨-, hr⟩
    · exact hx b hxr q hqp hq
    · exact hbufs q r b hqr hq hr

omit [DecidableEq β] in
/-- A call that finds too few free descriptors gives back those it took, and sleeps. -/
theorem Inv.sleep (hi : Inv s) {p : ι} {b : β} {write : Bool} {blockno : ℕ} {l : List ℕ}
    (hp : ∀ b' idx, s.proc p ≠ .wait b' idx) (hb : ∀ q, q ≠ p → (s.proc q).buf ≠ some b)
    (hl : ∀ j ∈ l, j < num ∧ s.disk.free j = true) :
    Inv { s with
      disk := s.disk.releaseAll l
      proc := Function.update s.proc p (.alloc b write blockno) } := by
  have hwait : ∀ q b' idx, Function.update s.proc p (.alloc b write blockno) q = .wait b' idx ↔
      s.proc q = .wait b' idx := fun q b' idx => update_wait_iff hp fun _ _ h => by cases h
  -- a descriptor given back was free, so it is in no chain
  have hnot : ∀ q b' idx, s.proc q = .wait b' idx → ∀ j ∈ idx, j ∉ l := fun q b' idx hq j hj hjl => by
    have := hi.not_free hq hj
    rw [(hl j hjl).2] at this
    cases this
  have hfree : (s.disk.releaseAll l).free = s.disk.free := releaseAll_free hl
  have hflight : ({ s with
      disk := s.disk.releaseAll l
      proc := Function.update s.proc p (.alloc b write blockno) } : Sys ι β).inFlight =
        s.inFlight := rfl
  refine ⟨hi.bounds, fun q b' idx hq => ?_, fun q r b1 b2 idx idx' hqr hq hr => ?_,
    fun i hi' hf => ?_, fun q r b' hqr hq hr => ?_, by rw [hflight]; exact hi.nodup,
    fun h hh => ?_, fun q b' idx hq => ?_, hi.status⟩
  · rw [hwait] at hq
    obtain ⟨j0, j1, j2, rfl, hold⟩ := hi.chain q b' _ hq
    refine ⟨j0, j1, j2, rfl, hold.congr (fun j hj => ?_) (fun j _ => by rw [hfree]) rfl⟩
    show (if j ∈ l then Desc.zero else s.disk.desc j) = s.disk.desc j
    rw [if_neg (hnot q b' _ hq j hj)]
  · rw [hwait] at hq hr
    exact hi.disjoint q r b1 b2 idx idx' hqr hq hr
  · obtain ⟨q, b', idx, hq, hiq⟩ := hi.owned i hi' (by rw [← hfree]; exact hf)
    exact ⟨q, b', idx, (hwait q b' idx).2 hq, hiq⟩
  · exact bufs_update hi.bufs (fun b' hx => by cases hx; exact hb) q r b' hqr hq hr
  · obtain ⟨q, b', idx, hq, hhead⟩ := hi.heads h (hflight ▸ hh)
    exact ⟨q, b', idx, (hwait q b' idx).2 hq, hhead⟩
  · rw [hwait] at hq
    exact hi.place q b' idx hq

/-- A call that finds three free descriptors: they become the caller's chain, formatted, and
its head is published. -/
theorem Inv.publish (hi : Inv s) {p : ι} {b : β} {i0 i1 i2 : ℕ} {D : Disk β}
    (hp : ∀ b' idx, s.proc p ≠ .wait b' idx) (hb : ∀ q, q ≠ p → (s.proc q).buf ≠ some b)
    (hfree : ∀ j ∈ [i0, i1, i2], j < num ∧ s.disk.free j = true)
    (hold : Holds D b i0 i1 i2)
    (hDfree : ∀ j, D.free j = if j ∈ [i0, i1, i2] then false else s.disk.free j)
    (hDdesc : ∀ j ∉ [i0, i1, i2], D.desc j = s.disk.desc j)
    (hDinfo : ∀ j, j ≠ i0 → D.info j = s.disk.info j)
    (hDused : D.used = s.disk.used) (hDusedIdx : D.usedIdx = s.disk.usedIdx)
    (hDavail : D.avail = ⟨Function.update s.disk.avail.ring (s.disk.avail.idx % num) i0,
      (s.disk.avail.idx + 1) % idxMod⟩)
    (hDbdisk : D.bdisk = Function.update s.disk.bdisk b true) :
    Inv { s with disk := D, proc := Function.update s.proc p (.wait b [i0, i1, i2]) } := by
  obtain ⟨hai, hla, hui, hux⟩ := hi.bounds
  -- the three descriptors were free: no chain and no head on its way is among them
  have hnotI : ∀ q b' idx, s.proc q = .wait b' idx → ∀ j ∈ idx, j ∉ [i0, i1, i2] :=
    fun q b' idx hq j hj hjI => by
      have := hi.not_free hq hj
      rw [(hfree j hjI).2] at this
      cases this
  have hi0 : i0 ∉ s.inFlight := fun h => by
    have := hi.inFlight_not_free h
    rw [(hfree i0 (by simp)).2] at this
    cases this
  have hqp : ∀ q b' idx, s.proc q = .wait b' idx → q ≠ p := fun q b' idx hq hqp =>
    hp b' idx (hqp ▸ hq)
  have hdone : D.done = s.disk.done := by
    unfold Disk.done Disk.unseen
    rw [hDused, hDusedIdx]
  -- the published heads gain `i0`
  have hpend : Ring.window D.avail.ring num s.lastAvail (gap D.avail.idx s.lastAvail) =
      s.pending ++ [i0] := by
    have hk : gap s.disk.avail.idx s.lastAvail < num := by
      have := hi.length_pending
      rwa [Sys.pending, Ring.length_window] at this
    rw [hDavail]
    exact window_publish hai hla hk i0
  have hflight : ({ s with disk := D, proc := Function.update s.proc p (.wait b [i0, i1, i2]) } :
      Sys ι β).inFlight = s.pending ++ i0 :: (s.taken ++ s.disk.done) := by
    show Ring.window D.avail.ring num s.lastAvail (gap D.avail.idx s.lastAvail) ++ s.taken ++
      D.done = _
    rw [hpend, hdone]
    simp
  have hmem : ∀ h, h ∈ s.pending ++ i0 :: (s.taken ++ s.disk.done) ↔ h = i0 ∨ h ∈ s.inFlight := by
    intro h
    simp only [Sys.inFlight, List.mem_append, List.mem_cons]
    tauto
  refine ⟨⟨by rw [hDavail]; exact Nat.mod_lt _ (by decide), hla, by rw [hDused]; exact hui,
    by rw [hDusedIdx]; exact hux⟩, ?_, ?_, ?_, ?_, ?_, ?_, ?_, ?_⟩
  · -- chains: the new one, and the others untouched
    intro q b' idx hq
    rcases update_eq_wait hq with ⟨rfl, hx⟩ | ⟨-, hq⟩
    · cases hx
      exact ⟨i0, i1, i2, rfl, hold⟩
    · obtain ⟨j0, j1, j2, rfl, hq'⟩ := hi.chain q b' _ hq
      have hj0 : j0 ≠ i0 := fun h => hnotI q b' _ hq j0 (by simp) (h ▸ by simp)
      exact ⟨j0, j1, j2, rfl, hq'.congr (fun j hj => hDdesc j (hnotI q b' _ hq j hj))
        (fun j hj => by rw [hDfree, if_neg (hnotI q b' _ hq j hj)]) (by rw [hDinfo j0 hj0])⟩
  · intro q r b1 b2 idx idx' hqr hq hr
    rcases update_eq_wait hq with ⟨hqp', hx⟩ | ⟨hqp', hq⟩
    · -- the new chain against another
      rcases update_eq_wait hr with ⟨hrp, -⟩ | ⟨-, hr⟩
      · exact absurd (hqp'.trans hrp.symm) hqr
      · cases hx
        exact fun i hi1 hi2 => hnotI r b2 idx' hr i hi2 hi1
    · rcases update_eq_wait hr with ⟨-, hy⟩ | ⟨-, hr⟩
      · cases hy
        exact fun i hi1 => hnotI q b1 idx hq i hi1
      · exact hi.disjoint q r b1 b2 idx idx' hqr hq hr
  · intro i hi' hfree'
    by_cases hiI : i ∈ [i0, i1, i2]
    · exact ⟨p, b, _, Function.update_self _ _ _, hiI⟩
    · have : s.disk.free i = false := by
        rw [← hfree']
        exact (if_neg hiI).symm.trans (hDfree i).symm
      obtain ⟨q, b', idx, hq, hiq⟩ := hi.owned i hi' this
      exact ⟨q, b', idx, by dsimp only; rw [Function.update_of_ne (hqp q b' idx hq)]; exact hq, hiq⟩
  · exact bufs_update hi.bufs fun b' hx => by cases hx; exact hb
  · rw [hflight, List.nodup_middle]
    exact List.nodup_cons.2 ⟨by simpa [Sys.inFlight] using hi0, by simpa [Sys.inFlight] using hi.nodup⟩
  · intro h hh
    rw [hflight, hmem] at hh
    rcases hh with rfl | hh
    · exact ⟨p, b, _, Function.update_self _ _ _, rfl⟩
    · obtain ⟨q, b', idx, hq, hhead⟩ := hi.heads h hh
      exact ⟨q, b', idx, by dsimp only; rw [Function.update_of_ne (hqp q b' idx hq)]; exact hq,
        hhead⟩
  · intro q b' idx hq h hh
    rw [hflight, hmem]
    show _ ↔ D.bdisk b' = true
    rcases update_eq_wait hq with ⟨rfl, hx⟩ | ⟨hqp', hq⟩
    · cases hx
      cases hh
      simp [hDbdisk]
    · have hbb : b' ≠ b := fun h => hb q hqp' (by rw [hq, h]; rfl)
      have hhi0 : h ≠ i0 := fun h' => hnotI q b' idx hq h (List.mem_of_mem_head? hh) (h' ▸ by simp)
      rw [hDbdisk, Function.update_of_ne hbb]
      simp only [hhi0, false_or]
      exact hi.place q b' idx hq h hh
  · intro h hh
    have hh' : h ∈ s.disk.done := hdone ▸ hh
    show (D.info h).status = 0
    rw [hDinfo h fun h' => hi0 (h' ▸ List.mem_append_right _ hh')]
    exact hi.status h hh'

/-- The chain `format` writes over three free descriptors it has taken. -/
theorem holds_format {d : Disk β} {b : β} {write : Bool} {blockno i0 i1 i2 : ℕ}
    (hnd : [i0, i1, i2].Nodup) (hlt : ∀ j ∈ [i0, i1, i2], j < num) :
    Holds (format (d.takeAll [i0, i1, i2]) b write blockno [i0, i1, i2]) b i0 i1 i2 := by
  refine ⟨hnd, fun j hj => ⟨hlt j hj, by rw [format_free, takeAll_free, if_pos hj]⟩,
    format_linked hnd, ?_, ?_, ?_, by simp⟩
  · rw [format_desc_head hnd]
  · rw [format_desc_data hnd]
  · rw [format_desc_status]

/-- `virtio_disk_rw` up to its first sleep, by a process that waits on no chain and is the
only one with `b`: it does not panic, and it keeps `Inv`. -/
theorem Inv.submit (hi : Inv s) {p : ι} {b : β} {write : Bool} {blockno : ℕ}
    (hp : ∀ b' idx, s.proc p ≠ .wait b' idx) (hb : ∀ q, q ≠ p → (s.proc q).buf ≠ some b) :
    ∃ r, submit s.disk b write blockno = .ok r ∧ Inv (afterAlloc s p b write blockno r) := by
  rcases submit_cases s.disk b write blockno with ⟨i0, i1, i2, hrun, hnd, hfree⟩ | ⟨l, hrun, hl⟩
  · refine ⟨_, hrun, hi.publish hp hb hfree (holds_format hnd fun j hj => (hfree j hj).1)
      (fun j => by rw [format_free, takeAll_free]) (fun j hj => by
        rw [format_desc_of_not_mem hj, takeAll_desc]) (fun j hj => by
        rw [format_info_of_ne hj, takeAll_info]) rfl rfl rfl rfl⟩
  · exact ⟨_, hrun, hi.sleep hp hb hl⟩

omit [DecidableEq β] in
/-- `p` wakes to find `b->disk` clear: `free_chain` gives back exactly its chain, with no
panic, and `Inv` holds with `p` out of the driver. -/
theorem Inv.finish (hi : Inv s) {p : ι} {b : β} {idx : List ℕ} (hp : s.proc p = .wait b idx)
    (hb : s.disk.bdisk b = false) :
    finish s.disk (idx.getD 0 0) = .ok (Disk.releaseAll { s.disk with
      info := Function.update s.disk.info (idx.getD 0 0)
        { s.disk.info (idx.getD 0 0) with b := none } } idx) ∧
    Inv { s with
      disk := Disk.releaseAll { s.disk with
        info := Function.update s.disk.info (idx.getD 0 0)
          { s.disk.info (idx.getD 0 0) with b := none } } idx
      proc := Function.update s.proc p .idle } := by
  obtain ⟨i0, i1, i2, rfl, hold⟩ := hi.chain p b _ hp
  rw [show [i0, i1, i2].getD 0 0 = i0 from rfl]
  refine ⟨freeChain_linked ⟨hold.linked.first, hold.linked.second, hold.linked.last⟩ hold.nodup
    hold.used, ?_⟩
  have hwait : ∀ q b' idx, Function.update s.proc p .idle q = .wait b' idx →
      q ≠ p ∧ s.proc q = .wait b' idx := fun q b' idx hq => by
    rcases update_eq_wait hq with ⟨-, hx⟩ | hq
    · cases hx
    · exact hq
  -- the chains of the other processes are disjoint from `p`'s
  have hnotI : ∀ q b' idx, q ≠ p → s.proc q = .wait b' idx → ∀ j ∈ idx, j ∉ [i0, i1, i2] :=
    fun q b' idx hqp hq j hj hjI => hi.disjoint q p b' b idx _ hqp hq hp j hj hjI
  -- `p`'s head is not on its way, since its buffer is no longer the device's
  have hi0 : i0 ∉ s.inFlight := fun h => by
    have := (hi.place p b _ hp i0 rfl).1 h
    rw [hb] at this
    cases this
  refine ⟨hi.bounds, fun q b' idx hq => ?_, fun q r b1 b2 idx idx' hqr hq hr => ?_,
    fun i hi' hf => ?_, bufs_update hi.bufs (fun _ hx => by cases hx), hi.nodup,
    fun h hh => ?_, fun q b' idx hq => ?_, fun h hh => ?_⟩
  · obtain ⟨hqp, hq⟩ := hwait q b' idx hq
    obtain ⟨j0, j1, j2, rfl, hold'⟩ := hi.chain q b' _ hq
    have hj0 : j0 ≠ i0 := fun h => hnotI q b' _ hqp hq j0 (by simp) (h ▸ by simp)
    refine ⟨j0, j1, j2, rfl, hold'.congr (fun j hj => ?_) (fun j hj => ?_) ?_⟩
    · show (if j ∈ [i0, i1, i2] then Desc.zero else s.disk.desc j) = s.disk.desc j
      rw [if_neg (hnotI q b' _ hqp hq j hj)]
    · show (if j ∈ [i0, i1, i2] then true else s.disk.free j) = s.disk.free j
      rw [if_neg (hnotI q b' _ hqp hq j hj)]
    · show (Function.update s.disk.info i0 _ j0).b = _
      rw [Function.update_of_ne hj0]
  · exact hi.disjoint q r b1 b2 idx idx' hqr (hwait q b1 idx hq).2 (hwait r b2 idx' hr).2
  · -- a descriptor still in use was not `p`'s, so another process owns it
    have hiI : i ∉ [i0, i1, i2] := fun h => by
      have : (if i ∈ [i0, i1, i2] then true else s.disk.free i) = false := hf
      rw [if_pos h] at this
      cases this
    have hfree : s.disk.free i = false := by
      have : (if i ∈ [i0, i1, i2] then true else s.disk.free i) = false := hf
      rwa [if_neg hiI] at this
    obtain ⟨q, b', idx, hq, hiq⟩ := hi.owned i hi' hfree
    have hqp : q ≠ p := by
      rintro rfl
      rw [hp] at hq
      cases hq
      exact hiI hiq
    exact ⟨q, b', idx, by dsimp only; rw [Function.update_of_ne hqp]; exact hq, hiq⟩
  · obtain ⟨q, b', idx, hq, hhead⟩ := hi.heads h hh
    have hqp : q ≠ p := by
      rintro rfl
      rw [hp] at hq
      cases hq
      cases hhead
      exact hi0 hh
    exact ⟨q, b', idx, by dsimp only; rw [Function.update_of_ne hqp]; exact hq, hhead⟩
  · exact hi.place q b' idx (hwait q b' idx hq).2
  · show (Function.update s.disk.info i0 _ h).status = 0
    by_cases hh0 : h = i0
    · subst hh0
      rw [Function.update_self]
      exact hi.status h hh
    · rw [Function.update_of_ne hh0]
      exact hi.status h hh

omit [DecidableEq ι] [DecidableEq β] in
/-- The buffers the driver records for the finished heads. -/
theorem Inv.done_buf (hi : Inv s) {h : ℕ} (hh : h ∈ s.disk.done) :
    ∃ p b i1 i2, s.proc p = .wait b [h, i1, i2] ∧ (s.disk.info h).b = some b := by
  obtain ⟨p, b, i1, i2, hp, hold⟩ := hi.owner (List.mem_append_right _ hh)
  exact ⟨p, b, i1, i2, hp, hold.info⟩

/-- `virtio_disk_intr`: every finished request has status `0` and a buffer, so the loop does
not panic; it clears `b->disk` of exactly the buffers recorded for the finished heads, and
`Inv` holds with none left finished. -/
theorem Inv.intr (hi : Inv s) :
    virtioDiskIntr s.disk = .ok { s.disk with
      usedIdx := s.disk.used.idx
      bdisk := fun b => if some b ∈ s.disk.done.map (s.disk.info · |>.b) then false
        else s.disk.bdisk b } ∧
    Inv { s with disk := { s.disk with
      usedIdx := s.disk.used.idx
      bdisk := fun b => if some b ∈ s.disk.done.map (s.disk.info · |>.b) then false
        else s.disk.bdisk b } } := by
  obtain ⟨hai, hla, hui, hux⟩ := hi.bounds
  have hok : ∀ h ∈ s.disk.done, (s.disk.info h).status = 0 ∧ (s.disk.info h).b ≠ none :=
    fun h hh => by
      obtain ⟨p, b, i1, i2, -, hb⟩ := hi.done_buf hh
      exact ⟨hi.status h hh, by rw [hb]; exact Option.some_ne_none b⟩
  refine ⟨?_, ?_⟩
  · rw [virtioDiskIntr, intrLoop_ok _ _ hux hok, Disk.unseen, add_gap_idxMod hui hux]
    rfl
  -- nothing is left finished, so the heads on their way are the published and taken ones
  have hflight : ({ s with disk := { s.disk with
      usedIdx := s.disk.used.idx
      bdisk := fun b => if some b ∈ s.disk.done.map (s.disk.info · |>.b) then false
        else s.disk.bdisk b } } : Sys ι β).inFlight = s.pending ++ s.taken := by
    show s.pending ++ s.taken ++ Ring.window _ num s.disk.used.idx (gap s.disk.used.idx
      s.disk.used.idx) = _
    rw [gap_self, Ring.window_zero, List.append_nil]
  have hsub : ∀ h, h ∈ s.pending ++ s.taken → h ∈ s.inFlight := fun h hh =>
    List.mem_append_left _ hh
  refine ⟨⟨hai, hla, hui, hui⟩, fun p b idx hp => ?_, hi.disjoint, hi.owned, hi.bufs, ?_,
    fun h hh => ?_, fun p b idx hp h hh => ?_, fun h hh => ?_⟩
  · obtain ⟨i0, i1, i2, rfl, hold⟩ := hi.chain p b idx hp
    exact ⟨i0, i1, i2, rfl, hold.congr (fun _ _ => rfl) (fun _ _ => rfl) rfl⟩
  · rw [hflight]
    exact hi.nodup.sublist (List.sublist_append_left _ _)
  · rw [hflight] at hh
    exact hi.heads h (hsub h hh)
  · rw [hflight]
    show _ ↔ (if some b ∈ s.disk.done.map (s.disk.info · |>.b) then false else s.disk.bdisk b) = true
    obtain ⟨i0, i1, i2, rfl, hold⟩ := hi.chain p b _ hp
    cases hh
    by_cases hd : h ∈ s.disk.done
    · -- finished: taken off its way, and its buffer cleared
      have hnd := hi.nodup
      rw [Sys.inFlight, List.nodup_append] at hnd
      rw [if_pos (List.mem_map.2 ⟨h, hd, hold.info⟩)]
      simp only [Bool.false_eq_true, iff_false]
      exact fun hh => hnd.2.2 h hh h hd rfl
    · -- not finished: a finished head with the same buffer would be the same process's
      have hnb : some b ∉ s.disk.done.map (s.disk.info · |>.b) := by
        intro hm
        obtain ⟨h', hd', hb'⟩ := List.mem_map.1 hm
        obtain ⟨q, b', j1, j2, hq, hqb⟩ := hi.done_buf hd'
        rw [hqb] at hb'
        cases hb'
        have hpq : q = p := by
          by_contra hpq
          exact hi.bufs q p b hpq (by rw [hq]; rfl) (by rw [hp]; rfl)
        subst hpq
        rw [hp] at hq
        cases hq
        exact hd hd'
      rw [if_neg hnb, ← hi.place p b _ hp h rfl]
      simp only [Sys.inFlight, List.mem_append, hd, or_false]
  · have hh' : h ∈ Ring.window s.disk.used.ring num s.disk.used.idx
        (gap s.disk.used.idx s.disk.used.idx) := hh
    rw [gap_self, Ring.window_zero] at hh'
    exact absurd hh' List.not_mem_nil

omit [DecidableEq ι] [DecidableEq β] in
/-- A state whose driver side is unchanged and whose heads on their way are a permutation of
the old ones, with the finished heads among the old finished ones and the status of each
finished request `0`, keeps `Inv`. -/
theorem Inv.of_perm (hi : Inv s) {s' : Sys ι β} (hproc : s'.proc = s.proc)
    (hbounds : s'.disk.avail.idx < idxMod ∧ s'.lastAvail < idxMod ∧ s'.disk.used.idx < idxMod ∧
      s'.disk.usedIdx < idxMod)
    (hdesc : s'.disk.desc = s.disk.desc) (hfree : s'.disk.free = s.disk.free)
    (hinfo : ∀ j, (s'.disk.info j).b = (s.disk.info j).b) (hbdisk : s'.disk.bdisk = s.disk.bdisk)
    (hperm : s'.inFlight.Perm s.inFlight)
    (hstatus : ∀ h ∈ s'.disk.done, (s'.disk.info h).status = 0) : Inv s' := by
  have hmem : ∀ h, h ∈ s'.inFlight ↔ h ∈ s.inFlight := fun h => hperm.mem_iff
  refine ⟨hbounds, fun p b idx hp => ?_, fun p q b b' idx idx' hpq hp hq => ?_,
    fun i hi' hf => ?_, fun p q b hpq hp hq => ?_, hperm.nodup_iff.2 hi.nodup, fun h hh => ?_,
    fun p b idx hp h hh => ?_, hstatus⟩
  · rw [hproc] at hp
    obtain ⟨i0, i1, i2, rfl, hold⟩ := hi.chain p b _ hp
    exact ⟨i0, i1, i2, rfl, hold.congr (fun j _ => by rw [hdesc]) (fun j _ => by rw [hfree])
      (hinfo i0)⟩
  · rw [hproc] at hp hq
    exact hi.disjoint p q b b' idx idx' hpq hp hq
  · rw [hfree] at hf
    rw [hproc]
    exact hi.owned i hi' hf
  · rw [hproc] at hp hq
    exact hi.bufs p q b hpq hp hq
  · rw [hproc]
    exact hi.heads h ((hmem h).1 hh)
  · rw [hproc] at hp
    rw [hmem, hbdisk]
    exact hi.place p b idx hp h hh

omit [DecidableEq ι] [DecidableEq β] in
/-- The device takes the next published head. -/
theorem Inv.take (hi : Inv s) (hne : s.lastAvail ≠ s.disk.avail.idx) :
    Inv { s with
      lastAvail := (s.lastAvail + 1) % idxMod
      taken := s.taken ++ [s.disk.avail.ring (s.lastAvail % num)] } := by
  obtain ⟨hai, hla, hui, hux⟩ := hi.bounds
  have hpend : s.pending = s.disk.avail.ring (s.lastAvail % num) ::
      Ring.window s.disk.avail.ring num ((s.lastAvail + 1) % idxMod)
        (gap s.disk.avail.idx ((s.lastAvail + 1) % idxMod)) :=
    window_take hai hla hne
  refine hi.of_perm rfl ⟨hai, Nat.mod_lt _ (by decide), hui, hux⟩ rfl rfl (fun _ => rfl) rfl ?_
    hi.status
  -- the head moves from the front of the published ones to the end of the taken ones
  show List.Perm (Ring.window s.disk.avail.ring num ((s.lastAvail + 1) % idxMod)
    (gap s.disk.avail.idx ((s.lastAvail + 1) % idxMod)) ++
      (s.taken ++ [s.disk.avail.ring (s.lastAvail % num)]) ++ s.disk.done) s.inFlight
  rw [Sys.inFlight, hpend]
  simpa only [List.append_assoc, List.singleton_append, List.cons_append, List.nil_append] using
    (List.perm_middle : List.Perm ((_ ++ s.taken) ++ s.disk.avail.ring (s.lastAvail % num) ::
      s.disk.done) _)

omit [DecidableEq β] in
/-- The status of a request after the device sets it: the buffer is unchanged. -/
theorem info_setStatus (info : ℕ → Info β) (h j : ℕ) :
    (Function.update info h { info h with status := 0 } j).b = (info j).b := by
  by_cases hj : j = h
  · subst hj
    rw [Function.update_self]
  · rw [Function.update_of_ne hj]

omit [DecidableEq ι] [DecidableEq β] in
/-- The device finishes a head it has taken: it writes status `0` at the head's own status
byte, and the head moves to the used ring. -/
theorem Inv.complete (hi : Inv s) {head : ℕ} (hh : head ∈ s.taken) :
    Inv { s with disk := deviceComplete s.disk head, taken := s.taken.erase head } := by
  obtain ⟨hai, hla, hui, hux⟩ := hi.bounds
  have hflight : head ∈ s.inFlight := by
    simp only [Sys.inFlight, List.mem_append, hh, true_or, or_true]
  obtain ⟨p, b, i1, i2, hp, hold⟩ := hi.owner hflight
  have hdev := deviceComplete_linked hold.linked hold.status
  -- the finished heads gain `head`
  have hdone : (deviceComplete s.disk head).done = s.disk.done ++ [head] := by
    have hk : gap s.disk.used.idx s.disk.usedIdx < num := by
      have := hi.length_done
      rwa [Disk.done, Ring.length_window] at this
    rw [hdev]
    exact window_publish hui hux hk head
  have hnot : head ∉ s.disk.done := by
    have hnd := hi.nodup
    rw [Sys.inFlight, List.nodup_append] at hnd
    exact fun hd => hnd.2.2 head (List.mem_append_right _ hh) head hd rfl
  refine hi.of_perm rfl ⟨hai, hla, by rw [hdev]; exact Nat.mod_lt _ (by decide), hux⟩
    (by rw [hdev]) (by rw [hdev]) (fun j => by rw [hdev]; exact info_setStatus _ _ _)
    (by rw [hdev]) ?_ ?_
  · show s.pending ++ s.taken.erase head ++ (deviceComplete s.disk head).done |>.Perm s.inFlight
    rw [hdone, Sys.inFlight, List.append_assoc, List.append_assoc]
    refine List.Perm.append_left _ ?_
    -- the head moves from the taken ones to the end of the finished ones
    calc List.Perm (s.taken.erase head ++ (s.disk.done ++ [head]))
          (head :: (s.taken.erase head ++ s.disk.done)) := by
          rw [← List.append_assoc]
          exact List.perm_append_singleton _ _
      List.Perm _ (s.taken ++ s.disk.done) := by
          rw [← List.cons_append]
          exact (List.perm_cons_erase hh).symm.append_right _
  · intro h hd
    rw [hdone, List.mem_append, List.mem_singleton] at hd
    rw [hdev]
    show (Function.update s.disk.info head _ h).status = 0
    by_cases hhead : h = head
    · subst hhead
      rw [Function.update_self]
    · rw [Function.update_of_ne hhead]
      exact hi.status h (hd.resolve_right hhead)

/-- From a state of `Inv`, no event panics, and every event keeps `Inv`. -/
theorem Inv.exec_ok [Fintype ι] (hi : Inv s) {e : Event ι β} {r : Except String (Sys ι β)}
    (he : exec s e = some r) : ∃ s', r = .ok s' ∧ Inv s' := by
  cases e with
  | rw p b write blockno =>
    simp only [exec] at he
    split at he
    · rename_i hg
      cases he
      obtain ⟨r', hrun, hinv⟩ := hi.submit (p := p)
        (fun b' idx h => by rw [hg.1] at h; cases h) (fun q _ => hg.2 q)
      exact ⟨_, by rw [hrun]; rfl, hinv⟩
    · cases he
  | retry p =>
    simp only [exec] at he
    split at he
    · rename_i b write blockno hp
      cases he
      -- a process looping for descriptors is the only one with its buffer
      obtain ⟨r', hrun, hinv⟩ := hi.submit (p := p) (b := b)
        (fun b' idx h => by rw [hp] at h; cases h)
        (fun q hqp => hi.bufs p q b (Ne.symm hqp) (by rw [hp]; rfl))
      exact ⟨_, by rw [hrun]; rfl, hinv⟩
    · cases he
  | resume p =>
    simp only [exec] at he
    split at he
    · rename_i b idx hp
      split at he
      · rename_i hb
        cases he
        obtain ⟨hrun, hinv⟩ := hi.finish hp hb
        exact ⟨_, by rw [hrun]; rfl, hinv⟩
      · cases he
    · cases he
  | intr =>
    cases he
    obtain ⟨hrun, hinv⟩ := hi.intr
    exact ⟨_, by rw [hrun]; rfl, hinv⟩
  | take =>
    simp only [exec] at he
    split at he
    · rename_i hne
      cases he
      exact ⟨_, rfl, hi.take hne⟩
    · cases he
  | complete head =>
    simp only [exec] at he
    split at he
    · rename_i hh
      cases he
      exact ⟨_, rfl, hi.complete hh⟩
    · cases he

theorem Inv.of_step [Fintype ι] (hi : Inv s) {e : Event ι β} {s' : Sys ι β}
    (h : step s e = some s') : Inv s' := by
  unfold step at h
  cases he : exec s e with
  | none =>
    rw [he] at h
    cases h
  | some r =>
    rw [he] at h
    obtain ⟨s'', rfl, hinv⟩ := hi.exec_ok he
    cases h
    exact hinv

end Events

theorem inv_init : Inv (init : Sys ι β) := by
  refine ⟨show 0 < idxMod ∧ 0 < idxMod ∧ 0 < idxMod ∧ 0 < idxMod by decide,
    ?_, ?_, ?_, ?_, ?_, ?_, ?_, ?_⟩
  · intro p b idx hp
    cases hp
  · intro p q b b' idx idx' _ hp
    cases hp
  · intro i hi hfree
    simp [init, hi] at hfree
  · intro p q b _ hp
    cases hp
  · simp [Sys.inFlight, Sys.pending, Disk.done, Disk.unseen, init, gap_self, Ring.window_zero]
  · intro h hh
    simp [Sys.inFlight, Sys.pending, Disk.done, Disk.unseen, init, gap_self, Ring.window_zero] at hh
  · intro p b idx hp
    cases hp
  · intro h hh
    simp [Disk.done, Disk.unseen, init, gap_self, Ring.window_zero] at hh

/-! ### Over every run -/

section Reachable

variable [DecidableEq ι] [DecidableEq β] [Fintype ι]

theorem inv_of_reachable {s : Sys ι β} (hs : Steps.Reachable step init s) : Inv s :=
  Steps.Reachable.inv inv_init (fun _ _ _ hi h => hi.of_step h) hs

/-- The descriptors of the driver in a state: free exactly when in no chain; the chains
disjoint, each three descriptors formatted and linked for its buffer; `alloc3_desc` takes three
distinct free descriptors or gives back all it took; `free_chain` of a finished request gives
back exactly its chain; no event panics; and `virtio_disk_intr` clears `b->disk` of exactly the
buffers recorded for the finished heads, each the buffer of the process waiting on that chain. -/
structure Descriptors (s : Sys ι β) : Prop where
  free_iff : ∀ i < num, s.disk.free i = true ↔ ∀ p b idx, s.proc p = .wait b idx → i ∉ idx
  disjoint : ∀ p q b b' idx idx', p ≠ q → s.proc p = .wait b idx → s.proc q = .wait b' idx' →
    ∀ i ∈ idx, i ∉ idx'
  chain : ∀ p b idx, s.proc p = .wait b idx →
    ∃ i0 i1 i2, idx = [i0, i1, i2] ∧ Holds s.disk b i0 i1 i2
  alloc3 : (∃ i0 i1 i2,
      alloc3Desc s.disk = .ok (some [i0, i1, i2], s.disk.takeAll [i0, i1, i2]) ∧
      [i0, i1, i2].Nodup ∧ ∀ j ∈ [i0, i1, i2], j < num ∧ s.disk.free j = true) ∨
    (∃ l, alloc3Desc s.disk = .ok (none, s.disk.releaseAll l) ∧
      ∀ j ∈ l, j < num ∧ s.disk.free j = true)
  freeChain : ∀ p b idx, s.proc p = .wait b idx → s.disk.bdisk b = false →
    finish s.disk (idx.getD 0 0) = .ok (Disk.releaseAll { s.disk with
      info := Function.update s.disk.info (idx.getD 0 0)
        { s.disk.info (idx.getD 0 0) with b := none } } idx)
  noPanic : ∀ e r, exec s e = some r → ∃ s', r = .ok s'
  intr : virtioDiskIntr s.disk = .ok { s.disk with
    usedIdx := s.disk.used.idx
    bdisk := fun b => if some b ∈ s.disk.done.map (s.disk.info · |>.b) then false
      else s.disk.bdisk b }
  done : ∀ h ∈ s.disk.done, ∃ p b i1 i2, s.proc p = .wait b [h, i1, i2] ∧ (s.disk.info h).b = some b

theorem descriptors_of_reachable {s : Sys ι β} (hs : Steps.Reachable step init s) :
    Descriptors s := by
  have hi := inv_of_reachable hs
  refine ⟨fun i hi' => ⟨fun hf p b idx hp hmem => ?_, fun h => ?_⟩, hi.disjoint, hi.chain,
    alloc3Desc_cases s.disk, fun p b idx hp hb => (hi.finish hp hb).1, fun e r he => ?_,
    hi.intr.1, fun h hh => hi.done_buf hh⟩
  · -- a descriptor of a chain is in use
    have := hi.not_free hp hmem
    rw [hf] at this
    cases this
  · -- a descriptor in use belongs to a chain
    by_contra hf
    obtain ⟨p, b, idx, hp, hmem⟩ := hi.owned i hi' (by simpa using hf)
    exact h p b idx hp hmem
  · obtain ⟨s', rfl, -⟩ := hi.exec_ok he
    exact ⟨s', rfl⟩

end Reachable

/-- A request for buffer `7` by process `0` takes descriptors `0`, `1`, `2`. -/
theorem descriptors_after_rw : ∃ s : Sys (Fin 2) ℕ, Steps.Reachable step init s ∧
    s.proc 0 = .wait 7 [0, 1, 2] ∧ Descriptors s := by
  obtain ⟨s, hrun, hp⟩ := Steps.exists_of_any (P := fun s : Sys (Fin 2) ℕ => s.proc 0 = .wait 7 [0, 1, 2])
    (show (Steps.run step (init : Sys (Fin 2) ℕ) [Event.rw 0 7 false 3]).any _ = true by
      decide +kernel)
  have hs := Steps.reachable_of_run hrun
  exact ⟨s, hs, hp, descriptors_of_reachable hs⟩

end Xv6.Virtio
