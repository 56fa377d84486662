import Mathlib.Logic.Basic

/-!
# Triples for programs with state and panics

A program of `StateT σ (Except ε) α` runs from a state either to an error, which stops the run
(a panic), or to a value and a new state.  `Triple bad P x Q` is partial correctness with chosen
errors ruled out: from every state satisfying `P`, `x` either fails with an error `e` that is not
`bad e`, or returns `a` in a state `s'` with `Q a s'`.

* `Outcome bad Q r`: what the triple asks of one result `r`;
* the rules: `Triple.pure`, `Triple.bind`, `Triple.conseq`, `Triple.get`, `Triple.set`,
  `Triple.modify`, `Triple.throw`, `Triple.throw_bind`, `Triple.ite`, `Triple.dite`,
  `Triple.assume` (a fact the precondition carries), `Triple.of_state` (a program that
  inspects the state it starts from), `Triple.get_bind` and `Triple.get_bind_eq` (one that reads
  it), `Triple.forM` (the invariant rule of a loop over a list), `Triple.forM_prefix` (one whose
  invariant names the elements done), `Triple.and` (conjunction) and `Triple.of_run` (a program
  given by its run);
* `Triple.run_ok`, `Triple.run_ne`, `Triple.exists_ok`: what a triple says about one run, the
  last for a triple that rules out every error.
-/

universe u v

variable {σ α β : Type u} {ε : Type v}

/-- A result that is a value and a state satisfying `Q`, or an error that is not `bad`. -/
def Outcome (bad : ε → Prop) (Q : α → σ → Prop) : Except ε (α × σ) → Prop
  | .ok (a, s') => Q a s'
  | .error e => ¬ bad e

@[simp] theorem outcome_ok {bad : ε → Prop} {Q : α → σ → Prop} (a : α) (s : σ) :
    Outcome bad Q (.ok (a, s)) = Q a s := rfl

@[simp] theorem outcome_error {bad : ε → Prop} {Q : α → σ → Prop} (e : ε) :
    Outcome bad Q (.error e) = ¬ bad e := rfl

/-- From every state satisfying `P`, `x` fails with no `bad` error, or returns a value and a
state satisfying `Q`. -/
def Triple (bad : ε → Prop) (P : σ → Prop) (x : StateT σ (Except ε) α)
    (Q : α → σ → Prop) : Prop :=
  ∀ s, P s → Outcome bad Q (x.run s)

namespace Triple

variable {bad : ε → Prop} {P P' : σ → Prop} {Q Q' : α → σ → Prop} {x y : StateT σ (Except ε) α}

theorem run_ok (h : Triple bad P x Q) {s s' : σ} {a : α} (hs : P s)
    (hx : x.run s = .ok (a, s')) : Q a s' := by
  have := h s hs
  rwa [hx] at this

theorem run_ne (h : Triple bad P x Q) {s : σ} (hs : P s) {e : ε} (he : bad e) :
    x.run s ≠ .error e := fun hx => by
  have := h s hs
  rw [hx] at this
  exact this he

theorem of_run (h : ∀ s, P s → Outcome bad Q (x.run s)) : Triple bad P x Q := h

/-- A triple that rules out every error: the program runs to a value. -/
theorem exists_ok (h : Triple (fun _ => True) P x Q) {s : σ} (hs : P s) :
    ∃ a s', x.run s = .ok (a, s') ∧ Q a s' := by
  have := h s hs
  revert this
  rcases x.run s with e | ⟨a, s'⟩
  · exact fun he => absurd trivial he
  · exact fun hq => ⟨a, s', rfl, hq⟩

/-- The rule of consequence. -/
theorem conseq (h : Triple bad P x Q) (hP : ∀ s, P' s → P s) (hQ : ∀ a s, Q a s → Q' a s) :
    Triple bad P' x Q' := fun s hs => by
  have := h s (hP s hs)
  revert this
  rcases x.run s with e | ⟨a, s'⟩
  · exact id
  · exact hQ a s'

theorem pure {a : α} (h : ∀ s, P s → Q a s) :
    Triple bad P (Pure.pure a : StateT σ (Except ε) α) Q := h

theorem bind {R : β → σ → Prop} {f : α → StateT σ (Except ε) β} (hx : Triple bad P x Q)
    (hf : ∀ a, Triple bad (Q a) (f a) R) : Triple bad P (x >>= f) R := fun s hs => by
  have := hx s hs
  rw [StateT.run_bind]
  revert this
  rcases x.run s with e | ⟨a, s'⟩
  · exact id
  · exact hf a s'

theorem get {Q : σ → σ → Prop} (h : ∀ s, P s → Q s s) :
    Triple bad P (MonadState.get : StateT σ (Except ε) σ) Q := h

theorem set {Q : PUnit → σ → Prop} {s' : σ} (h : ∀ s, P s → Q ⟨⟩ s') :
    Triple bad P (MonadState.set s' : StateT σ (Except ε) PUnit) Q := h

theorem modify {Q : PUnit → σ → Prop} {f : σ → σ} (h : ∀ s, P s → Q ⟨⟩ (f s)) :
    Triple bad P (modify f : StateT σ (Except ε) PUnit) Q := h

theorem throw {e : ε} (he : ¬ bad e) :
    Triple bad P (MonadExcept.throw e : StateT σ (Except ε) α) Q :=
  fun _ _ => he

/-- A panic that is not `bad` ends the program, whatever follows it. -/
theorem throw_bind {e : ε} {f : α → StateT σ (Except ε) β} {R : β → σ → Prop} (he : ¬ bad e) :
    Triple bad P (MonadExcept.throw e >>= f) R :=
  fun _ _ => he

theorem ite {c : Prop} [Decidable c] (hx : c → Triple bad P x Q) (hy : ¬ c → Triple bad P y Q) :
    Triple bad P (if c then x else y) Q := by
  by_cases hc : c
  · rw [if_pos hc]
    exact hx hc
  · rw [if_neg hc]
    exact hy hc

theorem dite {c : Prop} [Decidable c] {x : c → StateT σ (Except ε) α}
    {y : ¬ c → StateT σ (Except ε) α} (hx : ∀ h, Triple bad P (x h) Q)
    (hy : ∀ h, Triple bad P (y h) Q) : Triple bad P (if h : c then x h else y h) Q := by
  by_cases hc : c
  · rw [dif_pos hc]
    exact hx hc
  · rw [dif_neg hc]
    exact hy hc

/-- A fact of the precondition that does not depend on the state may be assumed. -/
theorem assume {c : Prop} (h : c → Triple bad P x Q) : Triple bad (fun s => P s ∧ c) x Q :=
  fun s hs => h hs.2 s hs.1

/-- A program that looks at the state it starts from is proved one starting state at a time. -/
theorem of_state (h : ∀ s₀, P s₀ → Triple bad (· = s₀) x Q) : Triple bad P x Q :=
  fun s hs => h s hs s rfl

/-- Reading the state: the rest is proved for the state read. -/
theorem get_bind {f : σ → StateT σ (Except ε) α}
    (h : ∀ s₀, Triple bad (fun s => P s ∧ s = s₀) (f s₀) Q) :
    Triple bad P (MonadState.get >>= f) Q :=
  fun s hs => h s s ⟨hs, rfl⟩

/-- Reading a state known in advance. -/
theorem get_bind_eq {s₀ : σ} {f : σ → StateT σ (Except ε) α} (h : Triple bad (· = s₀) (f s₀) Q) :
    Triple bad (· = s₀) (MonadState.get >>= f) Q := by
  rintro s rfl
  exact h s rfl

/-- Two specifications of one program hold together: a program has one run from each state. -/
theorem and (h : Triple bad P x Q) (h' : Triple bad P' x Q') :
    Triple bad (fun s => P s ∧ P' s) x fun a s => Q a s ∧ Q' a s := fun s hs => by
  have h₁ := h s hs.1
  have h₂ := h' s hs.2
  revert h₁ h₂
  rcases x.run s with e | ⟨a, s'⟩
  · exact fun he _ => he
  · exact And.intro

/-- A body that keeps `P` for every element of `l` keeps it over the loop. -/
theorem forM {γ : Type*} {l : List γ} {f : γ → StateT σ (Except ε) PUnit}
    (h : ∀ c ∈ l, Triple bad P (f c) fun _ => P) : Triple bad P (l.forM f) fun _ => P := by
  induction l with
  | nil => exact Triple.pure fun _ hs => hs
  | cons c l ih =>
    show Triple bad P (f c >>= fun _ => l.forM f) _
    exact (h c List.mem_cons_self).bind fun _ => ih fun c hc => h c (List.mem_cons_of_mem _ hc)

/-- The invariant rule of a loop that records the elements it has done: a body that takes
`I done` to `I (done ++ [c])` takes `I []` to `I l` over the loop. -/
theorem forM_prefix {γ : Type*} {l : List γ} {f : γ → StateT σ (Except ε) PUnit}
    (I : List γ → σ → Prop)
    (h : ∀ c ∈ l, ∀ done, Triple bad (I done) (f c) fun _ => I (done ++ [c])) :
    Triple bad (I []) (l.forM f) fun _ => I l := by
  suffices ∀ done, Triple bad (I done) (l.forM f) fun _ => I (done ++ l) from this []
  induction l with
  | nil => exact fun done => Triple.pure fun _ hs => by rwa [List.append_nil]
  | cons c l ih =>
    intro done
    show Triple bad (I done) (f c >>= fun _ => l.forM f) _
    refine (h c List.mem_cons_self done).bind fun _ => ?_
    have := ih (fun c hc => h c (List.mem_cons_of_mem _ hc)) (done ++ [c])
    rwa [List.append_assoc, List.singleton_append] at this

end Triple
