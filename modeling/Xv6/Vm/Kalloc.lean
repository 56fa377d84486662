import Mathlib
import Xv6.Vm.Walk

/-!
# The page allocator (`kernel/kalloc.c`) and physical memory

Physical memory is read as the 64-bit word at each address (`PteMem`), the view `walk` reads
page-table pages in; a page of user data is compared word by word.  `Kmem` adds `kmem.freelist`
as the list of its pages, head first, and the address `end` that the linker places after the
kernel image.

`kalloc` pops the head of the list and fills the page with junk; `kfree` refuses a page that is
unaligned or outside `[end, PHYSTOP)`, fills it with other junk and pushes it.

* `Kmem.Ok`: the free list has no page twice, and every page on it is one `kfree` accepts;
  `Kmem.Ok.pop` and `Kmem.Ok.push`, the list after `kalloc` and `kfree`, keep it;
* `Kmem.Frame k k' S`: `k'` differs from `k` at most on the pages of `S`, the frame every
  operation of `kernel/vm.c` is stated with.
-/

namespace Xv6.Vm

/-- `KERNBASE`: the kernel's first physical address. -/
def kernbase : ℕ := 0x80000000

/-- `PHYSTOP`: the end of the RAM the kernel uses. -/
def phystop : ℕ := kernbase + 128 * 1024 * 1024

/-- `TRAMPOLINE`: the highest virtual page. -/
def trampoline : ℕ := maxVa - pgSize

/-- `TRAPFRAME`: the virtual page below the trampoline. -/
def trapframe : ℕ := trampoline - pgSize

/-- Physical memory and the allocator's state. -/
structure Kmem where
  /-- The 64-bit word at each physical address. -/
  m : PteMem
  /-- `kmem.freelist`, head first. -/
  free : List ℕ
  /-- `end`, the first address after the kernel image. -/
  kend : ℕ

/-- The word whose eight bytes are `c`. -/
def fillWord (c : ℕ) : ℕ := c * 0x0101010101010101

namespace Kmem

/-- `memset(pa, c, PGSIZE)`. -/
def memset (k : Kmem) (pa c : ℕ) : Kmem :=
  { k with m := fun a => if pa ≤ a ∧ a < pa + pgSize then fillWord c else k.m a }

/-- `*(pte_t*)a = v`. -/
def store (k : Kmem) (a v : ℕ) : Kmem := { k with m := Function.update k.m a v }

/-- `memmove(dst, src, PGSIZE)`. -/
def movePage (k : Kmem) (dst src : ℕ) : Kmem :=
  { k with m := fun a => if dst ≤ a ∧ a < dst + pgSize then k.m (src + (a - dst)) else k.m a }

@[simp] theorem memset_free (k : Kmem) (pa c : ℕ) : (k.memset pa c).free = k.free := rfl
@[simp] theorem memset_kend (k : Kmem) (pa c : ℕ) : (k.memset pa c).kend = k.kend := rfl
@[simp] theorem store_free (k : Kmem) (a v : ℕ) : (k.store a v).free = k.free := rfl
@[simp] theorem store_kend (k : Kmem) (a v : ℕ) : (k.store a v).kend = k.kend := rfl
@[simp] theorem movePage_free (k : Kmem) (dst src : ℕ) : (k.movePage dst src).free = k.free := rfl
@[simp] theorem movePage_kend (k : Kmem) (dst src : ℕ) : (k.movePage dst src).kend = k.kend := rfl

theorem memset_m (k : Kmem) (pa c a : ℕ) :
    (k.memset pa c).m a = if pa ≤ a ∧ a < pa + pgSize then fillWord c else k.m a := rfl

theorem store_m (k : Kmem) (a v b : ℕ) : (k.store a v).m b = if b = a then v else k.m b :=
  Function.update_apply _ _ _ _

theorem movePage_m (k : Kmem) (dst src : ℕ) {off : ℕ} (h : off < pgSize) :
    (k.movePage dst src).m (dst + off) = k.m (src + off) := by
  simp only [movePage]
  rw [if_pos ⟨Nat.le_add_right _ _, Nat.add_lt_add_left h _⟩, Nat.add_sub_cancel_left]

end Kmem

/-- `kalloc()`: the head of the free list, filled with junk, or `0` when the list is empty. -/
def kalloc (k : Kmem) : ℕ × Kmem :=
  match k.free with
  | [] => (0, k)
  | r :: rest => (r, { k with free := rest }.memset r 5)

/-- `kfree(pa)`: panics on a page that is unaligned or outside `[end, PHYSTOP)`. -/
def kfree (k : Kmem) (pa : ℕ) : Except String Kmem :=
  if pa % pgSize ≠ 0 ∨ pa < k.kend ∨ phystop ≤ pa then .error "kfree"
  else .ok { k.memset pa 1 with free := pa :: k.free }

theorem kalloc_nil {k : Kmem} (h : k.free = []) : kalloc k = (0, k) := by
  rw [kalloc, h]

theorem kalloc_cons {k : Kmem} {r : ℕ} {rest : List ℕ} (h : k.free = r :: rest) :
    kalloc k = (r, { k with free := rest }.memset r 5) := by
  rw [kalloc, h]

/-! ### Pages and the free list -/

/-- A page `kfree` accepts. -/
structure Kmem.Page (k : Kmem) (p : ℕ) : Prop where
  aligned : p % pgSize = 0
  ge : k.kend ≤ p
  lt : p < phystop

/-- The allocator in order: no page twice on the list, each one `kfree` accepts, and `end`
above address 0, so that `kalloc` returns 0 only when the list is empty. -/
structure Kmem.Ok (k : Kmem) : Prop where
  nodup : k.free.Nodup
  page : ∀ p ∈ k.free, k.Page p
  kend_pos : 0 < k.kend

theorem Kmem.Page.pos {k : Kmem} {p : ℕ} (h : k.Page p) (hk : k.Ok) : 0 < p :=
  lt_of_lt_of_le hk.kend_pos h.ge

theorem Kmem.Page.lt_two_pow {k : Kmem} {p : ℕ} (h : k.Page p) : p < 2 ^ 64 :=
  lt_trans h.lt (by decide)

theorem Kmem.Page.congr {k k' : Kmem} {p : ℕ} (h : k.Page p) (he : k'.kend = k.kend) :
    k'.Page p :=
  ⟨h.aligned, he ▸ h.ge, h.lt⟩

theorem kfree_ok {k : Kmem} {pa : ℕ} (h : k.Page pa) :
    kfree k pa = .ok { k.memset pa 1 with free := pa :: k.free } := by
  have : ¬ (pa % pgSize ≠ 0 ∨ pa < k.kend ∨ phystop ≤ pa) := by
    have := h.aligned; have := h.ge; have := h.lt; omega
  rw [kfree, if_neg this]

/-- `kalloc` on an allocator in order: `0` and nothing changed on an empty list, otherwise its
head, a page `kfree` accepts and not on the list any more. -/
theorem kalloc_spec {k : Kmem} (hk : k.Ok) :
    (k.free = [] ∧ kalloc k = (0, k)) ∨
      ∃ r rest, k.free = r :: rest ∧ 0 < r ∧ k.Page r ∧ r ∉ rest ∧
        kalloc k = (r, { k with free := rest }.memset r 5) := by
  cases hf : k.free with
  | nil => exact .inl ⟨rfl, kalloc_nil hf⟩
  | cons r rest =>
    have hr : k.Page r := hk.page r (by rw [hf]; exact List.mem_cons_self)
    have hnd : (r :: rest).Nodup := hf ▸ hk.nodup
    exact .inr ⟨r, rest, rfl, hr.pos hk, hr, (List.nodup_cons.1 hnd).1, kalloc_cons hf⟩

theorem Kmem.Ok.pop {k : Kmem} {r : ℕ} {rest : List ℕ} (hk : k.Ok) (hf : k.free = r :: rest)
    (c : ℕ) : ({ k with free := rest }.memset r c).Ok := by
  have hnd : (r :: rest).Nodup := hf ▸ hk.nodup
  refine ⟨(List.nodup_cons.1 hnd).2, fun p hp => ?_, hk.kend_pos⟩
  exact (hk.page p (by rw [hf]; exact List.mem_cons_of_mem _ hp)).congr rfl

theorem Kmem.Ok.push {k : Kmem} {pa : ℕ} (hk : k.Ok) (hp : k.Page pa) (hn : pa ∉ k.free) :
    ({ k.memset pa 1 with free := pa :: k.free } : Kmem).Ok := by
  refine ⟨List.nodup_cons.2 ⟨hn, hk.nodup⟩, fun p hq => ?_, hk.kend_pos⟩
  rcases List.mem_cons.1 hq with rfl | hq
  · exact hp.congr rfl
  · exact (hk.page p hq).congr rfl

theorem Kmem.Ok.congr {k k' : Kmem} (hk : k.Ok) (hf : k'.free = k.free) (he : k'.kend = k.kend) :
    k'.Ok :=
  ⟨hf ▸ hk.nodup, fun p hp => (hk.page p (hf ▸ hp)).congr he, he ▸ hk.kend_pos⟩

/-- Pages put in front of the free list keep it in order when they are distinct pages `kfree`
accepts, none of them free already. -/
theorem Kmem.Ok.of_append {k k' : Kmem} {l : List ℕ} (hk : k.Ok) (hl : l.Nodup)
    (hp : ∀ x ∈ l, k.Page x) (hd : ∀ x ∈ l, x ∉ k.free) (hf : k'.free = l ++ k.free)
    (he : k'.kend = k.kend) : k'.Ok := by
  refine ⟨by rw [hf]; exact List.nodup_append.2 ⟨hl, hk.nodup, fun a ha b hb hab => hd a ha (hab ▸ hb)⟩,
    fun p hp' => ?_, he ▸ hk.kend_pos⟩
  rw [hf, List.mem_append] at hp'
  rcases hp' with hp' | hp'
  · exact (hp p hp').congr he
  · exact (hk.page p hp').congr he

theorem Kmem.Ok.perm {k k' : Kmem} (hk : k.Ok) (hp : k'.free.Perm k.free)
    (he : k'.kend = k.kend) : k'.Ok :=
  ⟨hp.nodup_iff.2 hk.nodup, fun p hq => (hk.page p (hp.mem_iff.1 hq)).congr he, he ▸ hk.kend_pos⟩

/-! ### Frames -/

/-- `k'` has the words of `k` outside the pages of `S`. -/
def Kmem.Frame (k k' : Kmem) (S : ℕ → Prop) : Prop :=
  ∀ a, ¬ S (pgrounddown a) → k'.m a = k.m a

namespace Kmem.Frame

variable {k k' k'' : Kmem} {S T : ℕ → Prop}

theorem refl (k : Kmem) (S : ℕ → Prop) : k.Frame k S := fun _ _ => rfl

theorem trans (h : k.Frame k' S) (h' : k'.Frame k'' T) : k.Frame k'' fun p => S p ∨ T p :=
  fun a ha => by
    rw [h' a fun hT => ha (.inr hT), h a fun hS => ha (.inl hS)]

theorem mono (h : k.Frame k' S) (hST : ∀ p, S p → T p) : k.Frame k' T :=
  fun a ha => h a fun hS => ha (hST _ hS)

end Kmem.Frame

/-- The page of an address in the page at an aligned `p` is `p`. -/
theorem pgrounddown_of_lt {p a : ℕ} (hp : p % pgSize = 0) (h₁ : p ≤ a) (h₂ : a < p + pgSize) :
    pgrounddown a = p := by
  unfold pgrounddown
  have h : a = p + (a - p) := by omega
  rw [h, Nat.add_mod, hp, Nat.zero_add, Nat.mod_mod, Nat.mod_eq_of_lt (by omega)]
  omega

/-- A step framed away from the aligned page `p` keeps its words. -/
theorem Kmem.Frame.page_eq {k k' : Kmem} {S : ℕ → Prop} (h : k.Frame k' S) {p off : ℕ}
    (hp : p % pgSize = 0) (hS : ¬ S p) (hoff : off < pgSize) : k'.m (p + off) = k.m (p + off) :=
  h _ (by rwa [pgrounddown_of_lt hp (Nat.le_add_right _ _) (by omega)])

theorem frame_memset (k : Kmem) {p : ℕ} (hp : p % pgSize = 0) (c : ℕ) :
    k.Frame (k.memset p c) (· = p) := by
  intro a ha
  have : ¬ (p ≤ a ∧ a < p + pgSize) := fun h => ha (pgrounddown_of_lt hp h.1 h.2)
  simp only [Kmem.memset, if_neg this]

theorem frame_movePage (k : Kmem) {p : ℕ} (hp : p % pgSize = 0) (src : ℕ) :
    k.Frame (k.movePage p src) (· = p) := by
  intro a ha
  have : ¬ (p ≤ a ∧ a < p + pgSize) := fun h => ha (pgrounddown_of_lt hp h.1 h.2)
  simp only [Kmem.movePage, if_neg this]

theorem frame_store (k : Kmem) (a v : ℕ) : k.Frame (k.store a v) (· = pgrounddown a) := by
  intro b hb
  have : b ≠ a := fun h => hb (h ▸ rfl)
  rw [Kmem.store_m, if_neg this]

theorem frame_kfree {k k' : Kmem} {pa : ℕ} (hp : k.Page pa) (h : kfree k pa = .ok k') :
    k.Frame k' (· = pa) := by
  rw [kfree_ok hp, Except.ok.injEq] at h
  subst h
  exact frame_memset k hp.aligned 1

theorem frame_kalloc {k k' : Kmem} {r : ℕ} (hk : k.Ok) (h : kalloc k = (r, k')) :
    k.Frame k' (· = r) := by
  rcases kalloc_spec hk with ⟨-, h0⟩ | ⟨r', rest, -, -, hr, -, h1⟩
  · rw [h0, Prod.mk.injEq] at h
    obtain ⟨-, rfl⟩ := h
    exact Kmem.Frame.refl _ _
  · rw [h1, Prod.mk.injEq] at h
    obtain ⟨rfl, rfl⟩ := h
    exact frame_memset _ hr.aligned 5

end Xv6.Vm
