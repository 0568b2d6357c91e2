import Mathlib

/-! # Programs that may fail

Rules for computations in `Except`: what a result says about the steps it
came from, and what holds after a run of steps none of which failed. -/

namespace Result

variable {ε α β σ : Type}

variable {x : Except ε α}

/-- A result of two steps is a result of each. -/
theorem bind_eq_ok {f : α → Except ε β} {b : β} (h : (x >>= f) = .ok b) :
    ∃ a, x = .ok a ∧ f a = .ok b := by
  cases x with
  | error e => exact nomatch h
  | ok a => exact ⟨a, rfl, h⟩

/-- A result of a mapped step is the image of its result. -/
theorem map_eq_ok {f : α → β} {b : β} (h : x.map f = .ok b) : ∃ a, x = .ok a ∧ f a = b := by
  cases x with
  | error e => exact nomatch h
  | ok a => exact ⟨a, rfl, Except.ok.inj h⟩

/-- A failure of a mapped step is one of the step. -/
theorem map_eq_error {f : α → β} {e : ε} (h : x.map f = .error e) : x = .error e := by
  cases x with
  | error e' => exact congrArg _ (Except.error.inj h)
  | ok a => exact nomatch h

/-! ## Runs that can be evaluated -/

section Evaluated

variable {p q : α → Prop} [DecidablePred p]

/-- A step that is seen to have such a result has one. -/
theorem exists_ok_of_any (h : x.toOption.any (p ·)) : ∃ a, x = .ok a ∧ p a := by
  cases x with
  | error e => exact nomatch h
  | ok a => exact ⟨a, rfl, of_decide_eq_true h⟩

theorem exists_some_of_any {x : Option α} (h : x.any (p ·)) : ∃ a, x = some a ∧ p a := by
  obtain ⟨a, ha, hp⟩ := (Option.any_eq_true _ x).mp h
  exact ⟨a, ha, of_decide_eq_true hp⟩

/-- What is proved of every such result can be said of it, too. -/
theorem exists_some_and_of_any {x : Option α} (h : x.any (p ·))
    (hq : ∀ a, x = some a → q a) : ∃ a, x = some a ∧ p a ∧ q a := by
  obtain ⟨a, ha, hp⟩ := exists_some_of_any h
  exact ⟨a, ha, hp, hq a ha⟩

end Evaluated

/-! ## Runs of steps -/

/-- **THE INVARIANT RULE**: what every step keeps holds after a run. -/
theorem foldlM_invariant {step : σ → α → Except ε σ} {I : σ → Prop}
    (hstep : ∀ s a s', I s → step s a = .ok s' → I s') {as : List α} :
    ∀ {s s' : σ}, I s → as.foldlM step s = .ok s' → I s' := by
  induction as with
  | nil =>
    intro s s' hs h
    cases h
    exact hs
  | cons a as ih =>
    intro s s' hs h
    rw [List.foldlM_cons] at h
    obtain ⟨s₁, hs₁, h⟩ := bind_eq_ok h
    exact ih (hstep s a s₁ hs hs₁) h

end Result

/-! # Steps that keep their state when they fail

A step returns the state it leaves and the error it stopped with, if any. -/

namespace Attempt

variable {σ ε : Type} {s : σ} {r : σ × Option ε} {f g : σ → σ × Option ε}

/-- Go on unless there was an error. -/
def andThen (r : σ × Option ε) (f : σ → σ × Option ε) : σ × Option ε :=
  match r with
  | (s, some e) => (s, some e)
  | (s, none) => f s

@[simp] theorem andThen_none (s : σ) (f : σ → σ × Option ε) : andThen (s, none) f = f s := rfl

/-- Two steps without an error are each without one. -/
theorem andThen_ok (h : andThen r f = (s, none)) : ∃ t, r = (t, none) ∧ f t = (s, none) := by
  obtain ⟨t, _ | e⟩ := r
  · exact ⟨t, rfl, h⟩
  · cases (Prod.mk.inj h).2

theorem andThen_congr (h : ∀ t, r = (t, none) → f t = g t) : andThen r f = andThen r g := by
  obtain ⟨t, _ | e⟩ := r
  · exact h t rfl
  · rfl

theorem andThen_assoc (r : σ × Option ε) (f g : σ → σ × Option ε) :
    andThen (andThen r f) g = andThen r fun t => andThen (f t) g := by
  obtain ⟨t, _ | e⟩ := r
  · rfl
  · rfl

/-- What the first step ends with and the second keeps holds at the end, error or not. -/
theorem andThen_invariant {I : σ → Prop} (h : I r.1)
    (hf : ∀ t, r = (t, none) → I t → I (f t).1) : I (andThen r f).1 := by
  obtain ⟨t, _ | e⟩ := r
  · exact hf t rfl h
  · exact h

end Attempt

/-! # Loops cut after a number of rounds

A loop is given by what one round does to a state, or by nothing where the
loop ends.  `rounds` makes at most a given number of rounds.

What every round keeps, the loop keeps.  A loop with a bound that sinks by a
fixed amount in every round has ended after as many rounds as the amount
fits into the bound.

A loop over a list makes one step for each of its elements. -/

namespace Loop

variable {σ : Type} {next : σ → Option σ}

/-! ## Rounds -/

/-- At most `n` rounds of the loop. -/
def rounds (next : σ → Option σ) : Nat → σ → σ
  | 0, s => s
  | n + 1, s =>
    match next s with
    | none => s
    | some s' => rounds next n s'

theorem rounds_of_none {s : σ} (h : next s = none) (n : Nat) : rounds next n s = s := by
  cases n with
  | zero => rfl
  | succ n => rw [rounds, h]

theorem rounds_succ {s s' : σ} (h : next s = some s') (n : Nat) :
    rounds next (n + 1) s = rounds next n s' := by
  rw [rounds, h]

/-- **WHAT EVERY ROUND KEEPS**, the loop keeps. -/
theorem rounds_keep {P : σ → Prop} (hround : ∀ s s', P s → next s = some s' → P s') (n : Nat) :
    ∀ {s : σ}, P s → P (rounds next n s) := by
  induction n with
  | zero => exact fun h => h
  | succ n ih =>
    intro s h
    cases hnext : next s with
    | none =>
      rw [rounds_of_none hnext]
      exact h
    | some s' =>
      rw [rounds_succ hnext]
      exact ih (hround s s' h hnext)

section Bound

variable {K : Type} [Ring K] [LinearOrder K] [IsStrictOrderedRing K]
variable {amount : K}

/-- **ENOUGH ROUNDS END THE LOOP**, if it ends where the bound is used up and
    the bound sinks by `amount`, or is used up, in every round. -/
theorem rounds_end {P : σ → Prop} (bound : σ → K) (hpos : 0 ≤ amount)
    (hkeep : ∀ s s', P s → next s = some s' → P s') (hend : ∀ s, bound s ≤ 0 → next s = none)
    (hround : ∀ s s', P s → next s = some s' →
      bound s' ≤ 0 ∨ bound s' + amount ≤ bound s) (n : Nat) :
    ∀ {s : σ}, P s → bound s ≤ n * amount → next (rounds next n s) = none := by
  induction n with
  | zero =>
    intro s _ h
    rw [Nat.cast_zero, zero_mul] at h
    exact hend s h
  | succ n ih =>
    intro s hP h
    cases hnext : next s with
    | none => rw [rounds_of_none hnext, hnext]
    | some s' =>
      rw [rounds_succ hnext]
      refine ih (hkeep s s' hP hnext) ?_
      rw [Nat.cast_succ, add_mul, one_mul] at h
      rcases hround s s' hP hnext with hused | hsunk
      · exact hused.trans (mul_nonneg n.cast_nonneg hpos)
      · exact le_of_add_le_add_right (hsunk.trans h)

end Bound

/-! ## Steps in any order -/

/-- Each of several steps sets its own part right, in any order. -/
theorem foldl_all {φ : Type} {step : σ → φ → σ} {I : σ → Prop} {P : φ → σ → Prop}
    (hI : ∀ s f, I s → I (step s f)) (hown : ∀ s f, I s → P f (step s f))
    (hother : ∀ s f g, I s → P g s → g ≠ f → P g (step s f)) {l : List φ} :
    ∀ {s : σ}, I s → I (l.foldl step s) ∧ ∀ g, g ∈ l ∨ P g s → P g (l.foldl step s) := by
  induction l with
  | nil =>
    intro s hs
    exact ⟨hs, fun g hg => hg.resolve_left List.not_mem_nil⟩
  | cons f l ih =>
    intro s hs
    obtain ⟨hend, hall⟩ := ih (hI s f hs)
    refine ⟨hend, fun g hg => hall g ?_⟩
    -- a step that is listed twice sets its part right again
    by_cases hgf : g = f
    · rw [hgf]
      exact .inr (hown s f hs)
    · rcases hg with hmem | hdone
      · exact .inl ((List.mem_cons.mp hmem).resolve_left hgf)
      · exact .inr (hother s f g hs hdone hgf)

end Loop

/-! # Coroutines over a shared state

A coroutine acts on a shared state, pauses, acts again, and so on.  What it
does next may depend on the state that it found, and others may act on the
state while it pauses.

`serial` is what is done by several of them that run one after the other. -/

namespace Coroutine

variable {σ ι : Type}

/-- The acts of a coroutine; it may pause between any two. -/
inductive Coro (σ : Type) where
  | done
  | seg (act : σ → σ) (next : σ → Coro σ)

/-- All acts, with nothing between them. -/
def Coro.run : Coro σ → σ → σ
  | .done, s => s
  | .seg act next, s => (next s).run (act s)

/-- The effects of `order`, one after the other. -/
def serial (effect : ι → σ → σ) (order : List ι) (s : σ) : σ :=
  order.foldl (fun s i => effect i s) s

theorem serial_concat (effect : ι → σ → σ) (order : List ι) (i : ι) (s : σ) :
    serial effect (order ++ [i]) s = effect i (serial effect order s) := by
  rw [serial, List.foldl_append]
  rfl

end Coroutine
