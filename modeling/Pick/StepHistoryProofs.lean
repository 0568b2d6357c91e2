import Pick.StepLineProofs

/-! # The history of a stepper

`add_move` keeps every move it makes, with the position before it.  Going through the
moves in order, each was accepted by `check_line` while the next of the steps that had
entered stood in the queue, or was a single far step of `stepcompress_flush_far`. -/

namespace Stepcompress

open List

/-! ## Moves -/

/-- A move of the history: the steps of a `queue_step` from `firstClock` on. -/
structure Entry where
  firstClock : Nat
  move : StepMove
  up : Bool

namespace Entry

variable (e : Entry)

/-- The clock of its last step. -/
def lastClock : Nat := e.firstClock + e.move.ticks.toNat

/-- Steps, with the sign of the direction. -/
def signed (n : Nat) : ℤ := if e.up then n else -n

/-- The steps, negative if backwards. -/
def stepCount : ℤ := e.signed e.move.count.toNat

/-- What `add_move` stores for a move from the position `p` on. -/
def history (p : ℤ) : HistorySteps where
  firstClock := e.firstClock
  lastClock := e.lastClock
  startPosition := p
  stepCount := e.stepCount
  interval := e.move.interval
  add := e.move.add

/-- `check_line` accepts the move for the steps `ts` in the queue. -/
structure Line (sc : State) (ts : List Nat) : Prop where
  pending : Pending sc ts
  count_le : e.move.count.toNat ≤ ts.length
  ok : checkLine sc e.move = .ok ()

/-- A move that `add_move` is called for. -/
def Made : Prop := e.move.count = 1 ∨ ∃ sc ts, e.Line sc ts

/-- The queue of the move's time held the first of the steps not sent, all in one direction, and
    the move was accepted for it; or the first was far away and sent alone. -/
def AcceptedFor (maxError : UInt32) (clock : Nat) (steps : List Step) : Prop :=
  (∃ sc queue, queue <+: steps ∧ (∀ step ∈ queue, step.dir = e.up) ∧
    sc.maxError = maxError ∧ sc.lastStepClock = clock ∧
    e.Line sc (queue.map Step.clock) ∧ e.firstClock = clock + e.move.interval.toNat) ∨
  (e.move.count = 1 ∧ clock + clockDiffMax ≤ e.firstClock ∧
    [(⟨e.firstClock, e.up⟩ : Step)] <+: steps)

variable {e} {maxError : UInt32} {clock : Nat} {steps steps' : List Step}

theorem AcceptedFor.made (h : e.AcceptedFor maxError clock steps) : e.Made := by
  rcases h with ⟨sc, queue, -, -, -, -, hline, -⟩ | ⟨hone, -⟩
  · exact .inr ⟨sc, _, hline⟩
  · exact .inl hone

theorem AcceptedFor.le_firstClock (h : e.AcceptedFor maxError clock steps) :
    clock ≤ e.firstClock := by
  rcases h with ⟨sc, queue, -, -, -, -, -, hfirst⟩ | ⟨-, hfar, -⟩
  · omega
  · omega

theorem AcceptedFor.mono (h : e.AcceptedFor maxError clock steps) (hsteps : steps <+: steps') :
    e.AcceptedFor maxError clock steps' := by
  rcases h with ⟨sc, queue, hqueue, h⟩ | ⟨hone, hfar, hfirst⟩
  · exact .inl ⟨sc, queue, hqueue.trans hsteps, h⟩
  · exact .inr ⟨hone, hfar, hfirst.trans hsteps⟩

end Entry

/-! ## Moves one after the other -/

variable {e : Entry} {es : List Entry} {p : ℤ} {sc sc' : State} {maxError : UInt32}
  {clock n : Nat} {steps steps' : List Step}

/-- What the history holds of moves from the position `p` on, oldest first. -/
def chronicle : ℤ → List Entry → List HistorySteps
  | _, [] => []
  | p, e :: es => e.history p :: chronicle (p + e.stepCount) es

/-- The signed number of all steps. -/
def stepTotal (es : List Entry) : ℤ := (es.map Entry.stepCount).sum

/-- The number of steps sent with the moves. -/
def stepsSent (es : List Entry) : Nat := (es.map fun e => e.move.count.toNat).sum

/-- The clock of the last step, `clock` if there is none. -/
def lastClock (clock : Nat) (es : List Entry) : Nat := (es.map Entry.lastClock).getLastD clock

/-- Each move was accepted for the queue of its time; `steps` have entered from the clock on. -/
def Accepted (maxError : UInt32) : Nat → List Step → List Entry → Prop
  | _, _, [] => True
  | clock, steps, e :: es => e.AcceptedFor maxError clock steps ∧
      Accepted maxError e.lastClock (steps.drop e.move.count.toNat) es

theorem stepTotal_cons (e : Entry) (es : List Entry) :
    stepTotal (e :: es) = e.stepCount + stepTotal es :=
  sum_cons

theorem stepTotal_append (es : List Entry) (e : Entry) :
    stepTotal (es ++ [e]) = stepTotal es + e.stepCount := by
  rw [stepTotal, map_append, sum_append, map_singleton, sum_singleton]
  rfl

theorem chronicle_append (p : ℤ) (es : List Entry) (e : Entry) :
    chronicle p (es ++ [e]) = chronicle p es ++ [e.history (p + stepTotal es)] := by
  induction es generalizing p with
  | nil =>
    show [e.history p] = [e.history (p + 0)]
    rw [add_zero]
  | cons e' es ih =>
    rw [cons_append, chronicle, ih, stepTotal_cons, ← add_assoc]
    rfl

theorem accepted_append (es : List Entry) (e : Entry) :
    Accepted maxError clock steps (es ++ [e]) ↔ Accepted maxError clock steps es ∧
      e.AcceptedFor maxError (lastClock clock es) (steps.drop (stepsSent es)) := by
  induction es generalizing clock steps with
  | nil => exact ⟨fun h => ⟨trivial, h.1⟩, fun h => ⟨h.2, trivial⟩⟩
  | cons e' es ih =>
    rw [cons_append, Accepted, ih, Accepted, and_assoc, drop_drop]
    have hlast : lastClock clock (e' :: es) = lastClock e'.lastClock es := getLastD_cons
    rw [hlast]
    rfl

theorem Accepted.mono (h : Accepted maxError clock steps es) (hsteps : steps <+: steps') :
    Accepted maxError clock steps' es := by
  induction es generalizing clock steps steps' with
  | nil => trivial
  | cons e es ih => exact ⟨h.1.mono hsteps, ih h.2 (hsteps.drop _)⟩

/-! ## The history list -/

/-- **A HISTORY** of the moves `es` from the position `p` on, oldest first: the positions
    continue each other up to the present one, and the moves are in time order. -/
structure History (p : ℤ) (es : List Entry) (sc : State) : Prop where
  history : sc.historyList = (chronicle p es).reverse
  position : sc.lastPosition = p + stepTotal es
  made : ∀ e ∈ es, e.Made
  ordered : es.Pairwise fun e e' => e.lastClock ≤ e'.firstClock

theorem History.addMove (h : History p es sc) (hup : e.up = decide (sc.sdir ≠ some false))
    (hmade : e.Made) (hlater : ∀ e' ∈ es, e'.lastClock ≤ e.firstClock) :
    History p (es ++ [e]) (addMove sc e.firstClock e.move) := by
  have hcount : (if sc.sdir = some false then -(e.move.count.toNat : ℤ)
      else e.move.count.toNat) = e.stepCount := by
    rw [Entry.stepCount, Entry.signed, hup]
    by_cases hsdir : sc.sdir = some false
    · rw [if_pos hsdir, if_neg (by simp [hsdir])]
    · rw [if_neg hsdir, if_pos (by simp [hsdir])]
  refine ⟨?_, ?_, forall_mem_append.mpr ⟨h.made, forall_mem_singleton.mpr hmade⟩,
    pairwise_append.mpr ⟨h.ordered, pairwise_singleton _ _, fun e₁ he₁ e₂ he₂ => ?_⟩⟩
  · rw [chronicle_append, reverse_append, ← h.history, ← h.position]
    rw [Stepcompress.addMove, hcount]
    rfl
  · rw [stepTotal_append, ← add_assoc, ← h.position]
    rw [Stepcompress.addMove, hcount]
  · rw [mem_singleton.mp he₂]
    exact hlater e₁ he₁

/-- The moves `es` are the history; they sent the first `n` of the steps and end at the last
    step clock. -/
structure Logged (base : Nat) (steps : List Step) (n : Nat) (es : List Entry) (sc : State) :
    Prop where
  history : History 0 es sc
  accepted : Accepted sc.maxError base steps es
  sent : stepsSent es = n
  clock : lastClock base es = sc.lastStepClock
  past : ∀ e ∈ es, e.lastClock ≤ sc.lastStepClock

variable {base : Nat}

/-- Another move, accepted for what is not sent yet. -/
theorem Logged.addMove (h : Logged base steps n es sc) (hup : e.up = decide (sc.sdir ≠ some false))
    (haccepted : e.AcceptedFor sc.maxError sc.lastStepClock (steps.drop n)) :
    Logged base steps (n + e.move.count.toNat) (es ++ [e]) (addMove sc e.firstClock e.move) := by
  have hfirst := haccepted.le_firstClock
  refine ⟨h.history.addMove hup haccepted.made fun e' he' => (h.past e' he').trans hfirst,
    (accepted_append es e).mpr ⟨h.accepted, ?_⟩, ?_, ?_, ?_⟩
  · rw [h.clock, h.sent]
    exact haccepted
  · rw [stepsSent, map_append, sum_append, map_singleton, sum_singleton]
    exact congrArg (· + _) h.sent
  · rw [lastClock, map_append, map_singleton, getLastD_concat]
    rfl
  · refine forall_mem_append.mpr ⟨fun e' he' => ?_, forall_mem_singleton.mpr le_rfl⟩
    exact ((h.past e' he').trans hfirst).trans (Nat.le_add_right _ _)

theorem Logged.mono (h : Logged base steps n es sc) (hsteps : steps <+: steps') :
    Logged base steps' n es sc :=
  { h with accepted := h.accepted.mono hsteps }

end Stepcompress
