import Mathlib.Data.List.Chain
import Mathlib.Data.List.Nodup

/-!
# Circular doubly linked lists through a head node

A circular doubly linked list as C keeps it: every node has a `next` and a `prev` pointer, and a
head node that holds no data closes the cycle.  The pointers of all nodes are the two functions
of `Links α`; the nodes the cycle visits are a list kept beside them, the list the pointers
represent.

* `Ring L h xs`: from `h`, `next` visits `xs` in order and comes back to `h`, `prev` retraces the
  same steps, and no node is visited twice;
* `Ring.pushFront`, `Ring.unlink`, `Ring.moveFront`: linking a node in after the head puts it
  first; splicing a node out removes it from wherever it is; the two together move it to the
  front;
* `Ring.swap`: the same cycle read backwards, through `prev`;
* `Ring.seek_next`, `Ring.seek_prev`: a loop that follows the pointers from the head until it
  comes back round finds what `List.find?` finds, forwards or backwards;
* `find?_of_imp`, `find?_of_unique`, `find?_erase`: what a search finds after the condition or
  the list changes.
-/

namespace DList

/-- The `next` and `prev` pointers of every node. -/
structure Links (α : Type*) where
  next : α → α
  prev : α → α

variable {α : Type*}

/-! ### Searching a list -/

section Find

variable {l : List α} {p q : α → Bool} {a : α}

/-- A search for a stronger condition that the first hit of a weaker one meets stops there too. -/
theorem find?_of_imp (h : l.find? p = some a) (hq : q a = true)
    (hqp : ∀ x, q x = true → p x = true) : l.find? q = some a := by
  obtain ⟨-, as, bs, rfl, has⟩ := List.find?_eq_some_iff_append.1 h
  refine List.find?_eq_some_iff_append.2 ⟨hq, as, bs, rfl, fun x hx => ?_⟩
  have hpx := has x hx
  cases hqx : q x
  · rfl
  · simp [hqp x hqx] at hpx

/-- A search for a condition that only `a` meets finds `a`. -/
theorem find?_of_unique (ha : a ∈ l) (hp : p a = true) (hu : ∀ x, p x = true → x = a) :
    l.find? p = some a := by
  cases h : l.find? p with
  | none => exact absurd hp (List.find?_eq_none.1 h a ha)
  | some x => rw [hu x (List.find?_some h)]

/-- Removing a node the search passes over does not change what it finds. -/
theorem find?_erase [DecidableEq α] (hp : p a = false) (l : List α) :
    (l.erase a).find? p = l.find? p := by
  induction l with
  | nil => rfl
  | cons x l ih =>
    by_cases hx : x = a
    · subst hx
      simp [hp]
    · rw [List.erase_cons_tail (by simpa using hx)]
      simp only [List.find?_cons, ih]

end Find

theorem head?_append_singleton (xs : List α) (h : α) : (xs ++ [h]).head? = some (xs.headD h) := by
  cases xs <;> rfl

namespace Links

/-- Consecutive nodes of `l` point to each other, forwards by `next` and back by `prev`. -/
def Linked (L : Links α) (l : List α) : Prop :=
  l.IsChain fun a b => L.next a = b ∧ L.prev b = a

/-- The pointers read the other way round. -/
def swap (L : Links α) : Links α := ⟨L.prev, L.next⟩

/-- The cycle from the head `h` through `xs` and back to `h`, visiting no node twice. -/
structure Ring (L : Links α) (h : α) (xs : List α) : Prop where
  linked : L.Linked (h :: (xs ++ [h]))
  nodup : (h :: xs).Nodup

theorem linked_cons_cons {L : Links α} {a b : α} {l : List α} :
    L.Linked (a :: b :: l) ↔ (L.next a = b ∧ L.prev b = a) ∧ L.Linked (b :: l) :=
  List.isChain_cons_cons

theorem linked_append_cons_cons {L : Links α} {b c : α} {l₁ l₂ : List α} :
    L.Linked (l₁ ++ b :: c :: l₂) ↔
      L.Linked (l₁ ++ [b]) ∧ (L.next b = c ∧ L.prev c = b) ∧ L.Linked (c :: l₂) :=
  List.isChain_append_cons_cons

/-- Only the pointers a list goes through matter: `next` of every node but its last, `prev` of
every node but its first. -/
theorem Linked.frame {L L' : Links α} {l : List α} (hl : L.Linked l)
    (hn : ∀ a ∈ l.dropLast, L'.next a = L.next a) (hp : ∀ b ∈ l.tail, L'.prev b = L.prev b) :
    L'.Linked l := by
  induction hl with
  | nil => exact .nil
  | singleton a => exact .singleton a
  | @cons_cons a b l hr _ ih =>
    refine .cons_cons ⟨?_, ?_⟩ (ih ?_ ?_)
    · rw [hn a (by simp)]
      exact hr.1
    · rw [hp b (by simp)]
      exact hr.2
    · intro x hx
      exact hn x (by rw [List.dropLast_cons_cons]; exact List.mem_cons_of_mem _ hx)
    · intro x hx
      exact hp x (List.mem_of_mem_tail hx)

theorem Linked.swap_reverse {L : Links α} {l : List α} (hl : L.Linked l) :
    L.swap.Linked l.reverse :=
  List.isChain_reverse.2 (hl.imp fun _ _ h => ⟨h.2, h.1⟩)

/-- Every node of a linked list but the last is its successor's predecessor. -/
theorem Linked.prev_next {L : Links α} {l : List α} (hl : L.Linked l) {a : α}
    (ha : a ∈ l.dropLast) : L.prev (L.next a) = a := by
  induction hl with
  | nil => simp at ha
  | singleton => simp at ha
  | @cons_cons x y l hr _ ih =>
    rw [List.dropLast_cons_cons, List.mem_cons] at ha
    rcases ha with rfl | ha
    · rw [hr.1, hr.2]
    · exact ih ha

/-! ### The cycle -/

section Ring

variable {L : Links α} {h : α} {xs : List α}

/-- The head points forwards to the first node, or to itself when the list is empty. -/
theorem Ring.next_head (hr : L.Ring h xs) : L.next h = xs.headD h := by
  have := (List.isChain_cons.1 hr.linked).1
  rw [head?_append_singleton] at this
  exact (this _ rfl).1

theorem Ring.nodup_append (hr : L.Ring h xs) : (xs ++ [h]).Nodup :=
  (List.perm_append_singleton h xs).nodup_iff.2 hr.nodup

theorem Ring.swap (hr : L.Ring h xs) : L.swap.Ring h xs.reverse := by
  constructor
  · have := hr.linked.swap_reverse
    simpa using this
  · have := hr.nodup
    simp only [List.nodup_cons, List.mem_reverse, List.nodup_reverse] at this ⊢
    exact this

/-- Following a node's `next` and then `prev` comes back to it, for every node of the cycle. -/
theorem Ring.prev_next (hr : L.Ring h xs) {a : α} (ha : a ∈ h :: xs) : L.prev (L.next a) = a := by
  apply hr.linked.prev_next
  rw [← List.cons_append, List.dropLast_concat]
  exact ha

/-- Following a node's `prev` and then `next` comes back to it. -/
theorem Ring.next_prev (hr : L.Ring h xs) {a : α} (ha : a ∈ h :: xs) : L.next (L.prev a) = a :=
  hr.swap.prev_next (by simpa using ha)

/-- The empty cycle: the head points to itself both ways. -/
theorem ring_nil (hn : L.next h = h) (hp : L.prev h = h) : L.Ring h [] :=
  ⟨linked_cons_cons.2 ⟨⟨hn, hp⟩, .singleton h⟩, List.nodup_singleton h⟩

end Ring

/-! ### Linking a node in after the head, and splicing one out -/

variable [DecidableEq α]

/-- `b->next = h->next; b->prev = h; h->next->prev = b; h->next = b`. -/
def pushFront (L : Links α) (h b : α) : Links α :=
  let next := Function.update L.next b (L.next h)
  let prev := Function.update L.prev b h
  let prev := Function.update prev (next h) b
  ⟨Function.update next h b, prev⟩

/-- `b->next->prev = b->prev; b->prev->next = b->next`. -/
def unlink (L : Links α) (b : α) : Links α :=
  let prev := Function.update L.prev (L.next b) (L.prev b)
  ⟨Function.update L.next (prev b) (L.next b), prev⟩

theorem pushFront_next (L : Links α) (h b a : α) :
    (L.pushFront h b).next a = if a = h then b else if a = b then L.next h else L.next a := by
  simp only [pushFront, Function.update_apply]

/-- The head's old successor is read before any pointer changes, so `prev` is updated at it even
when it is `b` itself. -/
theorem pushFront_prev (L : Links α) (h b a : α) :
    (L.pushFront h b).prev a = if a = L.next h then b else if a = b then h else L.prev a := by
  simp only [pushFront, Function.update_apply, ite_self]

theorem unlink_next (L : Links α) (b a : α) :
    (L.unlink b).next a = if a = L.prev b then L.next b else L.next a := by
  simp only [unlink, Function.update_apply, ite_self]

theorem unlink_prev (L : Links α) (b a : α) :
    (L.unlink b).prev a = if a = L.next b then L.prev b else L.prev a := by
  simp only [unlink, Function.update_apply]

section Ring

variable {L : Links α} {h b : α}

/-- Linking a node that is not on the cycle in after the head makes it the first node. -/
theorem Ring.pushFront {xs : List α} (hr : L.Ring h xs) (hb : b ∉ h :: xs) :
    (L.pushFront h b).Ring h (b :: xs) := by
  obtain ⟨hbh, hbx⟩ : b ≠ h ∧ b ∉ xs := by simpa using hb
  have hnd := hr.nodup_append
  -- the old cycle, from the head's successor `y` on
  obtain ⟨y, l, hl⟩ : ∃ y l, xs ++ [h] = y :: l := List.exists_cons_of_ne_nil (by simp)
  have hlink := hr.linked
  rw [hl, linked_cons_cons] at hlink
  obtain ⟨⟨hy, -⟩, hrest⟩ := hlink
  rw [hl] at hnd
  have hyl : y ∉ l := (List.nodup_cons.1 hnd).1
  have hby : b ∉ y :: l := by
    rw [← hl]
    simpa [hbh] using hbx
  obtain ⟨hby, hbl⟩ : b ≠ y ∧ b ∉ l := by simpa using hby
  refine ⟨?_, ?_⟩
  · rw [List.cons_append, hl, linked_cons_cons, linked_cons_cons]
    refine ⟨⟨by simp [pushFront_next], by simp [pushFront_prev, hy, hby]⟩,
      ⟨by simp [pushFront_next, hbh, hy], by simp [pushFront_prev, hy]⟩, hrest.frame ?_ ?_⟩
    · -- the nodes after the head's successor, up to the head: `next` is unchanged there
      intro a ha
      have ha' : a ∈ xs := by
        have e : (xs ++ [h]).dropLast = xs := List.dropLast_concat
        rw [← e, hl]
        exact ha
      have hah : a ≠ h := fun hah => (List.nodup_cons.1 hr.nodup).1 (hah ▸ ha')
      have hab : a ≠ b := fun hab => hbx (hab ▸ ha')
      simp [pushFront_next, hah, hab]
    · -- and `prev` is unchanged from the second node on
      intro a ha
      have hay : a ≠ y := fun hay => hyl (hay ▸ ha)
      have hab : a ≠ b := fun hab => hbl (hab ▸ ha)
      simp [pushFront_prev, hy, hay, hab]
  · have := List.nodup_cons.1 hr.nodup
    exact List.nodup_cons.2 ⟨by simp [Ne.symm hbh, this.1], List.nodup_cons.2 ⟨hbx, this.2⟩⟩

/-- Splicing a node out of the cycle removes it, wherever it stands. -/
theorem Ring.unlink {ys zs : List α} (hr : L.Ring h (ys ++ b :: zs)) :
    (L.unlink b).Ring h (ys ++ zs) := by
  have hnd := hr.nodup
  -- `p` precedes `b` and `n` follows it
  obtain ⟨A, p, hA⟩ : ∃ A p, h :: ys = A ++ [p] :=
    ⟨_, _, (List.dropLast_append_getLast (List.cons_ne_nil h ys)).symm⟩
  obtain ⟨n, B, hB⟩ : ∃ n B, zs ++ [h] = n :: B := List.exists_cons_of_ne_nil (by simp)
  have hold : h :: (ys ++ b :: zs ++ [h]) = A ++ p :: b :: n :: B := by
    rw [List.append_assoc, List.cons_append, hB, ← List.cons_append, hA, List.append_assoc]
    rfl
  have hlink := hr.linked
  rw [hold, linked_append_cons_cons, linked_cons_cons] at hlink
  obtain ⟨hleft, ⟨-, hprev_b⟩, ⟨hnext_b, -⟩, hright⟩ := hlink
  -- which nodes of the cycle are distinct
  have hndA : (A ++ [p]).Nodup := by
    rw [← hA]
    exact hnd.sublist (by simp)
  have hndB : (n :: B).Nodup := by
    rw [← hB]
    exact (Ring.nodup_append ⟨hr.linked, hnd⟩).sublist (by simp)
  have hdisj : ∀ a ∈ ys, a ∉ zs ++ [h] := by
    intro a ha hc
    simp only [List.nodup_cons, List.nodup_append, List.mem_append, List.mem_cons] at hnd
    simp only [List.mem_append, List.mem_singleton] at hc
    rcases hc with hc | rfl
    · exact hnd.2.2.2 a ha a (.inr hc) rfl
    · exact hnd.1 (.inl ha)
  have hp : p ∈ h :: ys := by simp [hA]
  have hn : n ∈ zs ++ [h] := by simp [hB]
  refine ⟨?_, ?_⟩
  · have hnew : h :: (ys ++ zs ++ [h]) = A ++ p :: n :: B := by
      rw [List.append_assoc, hB, ← List.cons_append, hA, List.append_assoc]
      rfl
    rw [hnew, linked_append_cons_cons]
    refine ⟨hleft.frame ?_ ?_, ⟨?_, ?_⟩, hright.frame ?_ ?_⟩
    · -- before `b`, `next` changes only at its predecessor, the last node there
      intro a ha
      rw [List.dropLast_concat] at ha
      have hap : a ≠ p := (List.nodup_append.1 hndA).2.2 a ha p (List.mem_singleton_self p)
      simp [unlink_next, hprev_b, hap]
    · -- and `prev` only at its successor, which lies after it
      intro a ha
      have ha' : a ∈ ys := by simpa [← hA] using ha
      have han : a ≠ n := fun e => hdisj a ha' (e ▸ hn)
      simp [unlink_prev, hnext_b, han]
    · simp [unlink_next, hprev_b, hnext_b]
    · simp [unlink_prev, hnext_b, hprev_b]
    · intro a ha
      have ha' : a ∈ zs := by simpa [← hB] using ha
      have hap : a ≠ p := by
        rintro rfl
        rcases List.mem_cons.1 hp with hah | hay
        · exact (List.nodup_cons.1 hnd).1 (by simp [← hah, ha'])
        · exact hdisj a hay (by simp [ha'])
      simp [unlink_next, hprev_b, hap]
    · intro a ha
      have han : a ≠ n := by
        rintro rfl
        exact (List.nodup_cons.1 hndB).1 ha
      simp [unlink_prev, hnext_b, han]
  · refine hnd.sublist ?_
    simp

/-- Splicing a node out and linking it back in after the head moves it to the front. -/
theorem Ring.moveFront [BEq α] [LawfulBEq α] {xs : List α} (hr : L.Ring h xs) (hb : b ∈ xs) :
    ((L.unlink b).pushFront h b).Ring h (b :: xs.erase b) := by
  obtain ⟨ys, zs, rfl⟩ := List.append_of_mem hb
  have hnd := hr.nodup
  simp only [List.nodup_cons, List.nodup_append, List.mem_append, List.mem_cons] at hnd
  have hby : b ∉ ys := fun hy => hnd.2.2.2 b hy b (.inl rfl) rfl
  rw [List.erase_append_right _ hby, List.erase_cons_head]
  refine hr.unlink.pushFront ?_
  simp only [List.mem_cons, List.mem_append, not_or]
  exact ⟨fun e => hnd.1 (.inr (.inl e.symm)), hby, hnd.2.2.1.1⟩

/-- Linking nodes in after the head one after the other leaves them in the reverse order. -/
theorem Ring.foldl_pushFront {xs : List α} (hr : L.Ring h xs) {bs : List α}
    (hnd : (bs ++ h :: xs).Nodup) :
    (bs.foldl (fun L b => L.pushFront h b) L).Ring h (bs.reverse ++ xs) := by
  induction bs generalizing L xs with
  | nil => simpa using hr
  | cons b bs ih =>
    have hb : b ∉ h :: xs := by
      intro hb
      exact (List.nodup_cons.1 hnd).1 (List.mem_append_right _ hb)
    have hnd' : (bs ++ h :: b :: xs).Nodup := by
      have hperm : List.Perm (bs ++ h :: b :: xs) (b :: bs ++ h :: xs) := by
        have e : bs ++ h :: b :: xs = (bs ++ [h]) ++ b :: xs := by simp
        rw [e]
        exact List.perm_middle.trans (by simp)
      exact hperm.nodup_iff.2 hnd
    simpa using ih (hr.pushFront hb) hnd'

end Ring

end Links

/-! ### Walking the cycle -/

variable [DecidableEq α]

/-- Follow `f` from `a` until the head `h` comes round, and return the first node that satisfies
`P`: the loop `for(b = a; b != h; b = f(b)) if(P(b)) return b;`, looking at `fuel` nodes at
most. -/
def seek (f : α → α) (h : α) (P : α → Bool) : ℕ → α → Option α
  | 0, _ => none
  | fuel + 1, a => if a = h then none else if P a then some a else seek f h P fuel (f a)

/-- Along a chain of `f` that ends at the head, the loop finds what `List.find?` finds. -/
theorem seek_eq_find? {f : α → α} {h : α} {P : α → Bool} {xs : List α} {fuel : ℕ}
    (hc : (xs ++ [h]).IsChain fun a b => f a = b) (hh : h ∉ xs) (hn : xs.length < fuel) :
    seek f h P fuel (xs.headD h) = xs.find? P := by
  induction xs generalizing fuel with
  | nil =>
    obtain ⟨fuel, rfl⟩ := Nat.exists_eq_add_one_of_ne_zero (Nat.pos_iff_ne_zero.1 hn)
    simp [seek]
  | cons x xs ih =>
    obtain ⟨fuel, rfl⟩ := Nat.exists_eq_add_one_of_ne_zero (Nat.pos_iff_ne_zero.1 (Nat.zero_lt_of_lt hn))
    obtain ⟨hx, hh⟩ : x ≠ h ∧ h ∉ xs := by simpa [eq_comm] using hh
    rw [List.cons_append] at hc
    -- the step from `x` goes to the next node of the chain
    have hfx : f x = xs.headD h := by
      have := (List.isChain_cons.1 hc).1
      rw [head?_append_singleton] at this
      exact this _ rfl
    have ih' := ih (List.isChain_cons.1 hc).2 hh (by simpa using hn)
    simp only [seek, List.headD_cons, if_neg hx, List.find?_cons, hfx, ih']
    cases P x <;> rfl

variable {L : Links α} {h : α} {xs : List α}

/-- The loop forwards from the head's successor finds the first node of the cycle with `P`. -/
theorem Links.Ring.seek_next (hr : L.Ring h xs) (P : α → Bool) {fuel : ℕ} (hf : xs.length < fuel) :
    seek L.next h P fuel (L.next h) = xs.find? P := by
  rw [hr.next_head]
  exact seek_eq_find? (hr.linked.tail.imp fun _ _ r => r.1) (List.nodup_cons.1 hr.nodup).1 hf

/-- The loop backwards from the head's predecessor finds the last. -/
theorem Links.Ring.seek_prev (hr : L.Ring h xs) (P : α → Bool) {fuel : ℕ} (hf : xs.length < fuel) :
    seek L.prev h P fuel (L.prev h) = xs.reverse.find? P :=
  hr.swap.seek_next P (by simpa using hf)

end DList
