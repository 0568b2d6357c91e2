import Pick.StepHostProofs
import Pick.TurnCounterProofs

/-! # The position of the host (`klippy/chelper/stepcompress.c`)

A step of the host is pending, then queued, then part of a move that has been sent,
or it goes with the next one if that comes too soon and in the other direction.  The
position follows the moves that have been sent.

Nothing is asked of the clocks here but that they are not 0, which stands for
no pending step. -/

namespace Stepcompress

open List TurnCounter

/-! ## Model -/

/-- `stepcompress_reset`. -/
def Host.reset (fuel lastStepClock : Nat) (h : Host) : Except Failure Host := do
  let h ← h.flush fuel ⊤
  .ok { h with
    sc := { h.sc with lastStepClock := lastStepClock, sdir := none } }

/-- A message that goes out in order with those of the stepper, behind `place` of them. -/
structure OtherMessage where
  place : Nat
  data : List UInt32
  reqClock : Nat

/-- A stepper of the host, with the messages of other code in its queue. -/
structure Line where
  host : Host
  others : List OtherMessage

/-- `stepcompress_queue_msg`. -/
def Line.queueMsg (fuel : Nat) (data : List UInt32) (l : Line) :
    Except Failure Line := do
  let h ← l.host.flush fuel ⊤
  .ok ⟨h, l.others ++ [⟨h.sc.msgQueue.length, data, h.sc.lastStepClock⟩]⟩

/-- What is asked of a `stepcompress`. -/
inductive Order where
  | call (call : Call)
  | reset (lastStepClock : Nat)
  | queueMsg (data : List UInt32)

/-- One of these. -/
def Line.order (fuel : Nat) (l : Line) : Order → Except Failure Line
  | .call call => (l.host.call fuel call).map fun h => { l with host := h }
  | .reset lastStepClock => (l.host.reset fuel lastStepClock).map fun h => { l with host := h }
  | .queueMsg data => l.queueMsg fuel data

/-- Calls that all return 0. -/
def Line.run (fuel : Nat) (l : Line) (orders : List Order) : Except Failure Line :=
  orders.foldlM (Line.order fuel) l

/-- A stepper before its first step, at a position. -/
def Line.start (maxError : UInt32) (invertSdir : Bool) (sdsFilter : Int)
    (lastStepClock : Nat) (lastPosition : Int) : Line :=
  let h := Host.start maxError invertSdir sdsFilter lastStepClock
  ⟨{ h with sc := { h.sc with lastPosition := lastPosition } }, []⟩

/-- The directions of the steps that are appended. -/
def appended : List Order → List Bool
  | [] => []
  | .call (.append sdir _) :: orders => sdir :: appended orders
  | _ :: orders => appended orders

/-- The steps in the queue, with their sign. -/
def State.queuedSteps (sc : State) : ℤ :=
  if sc.sdir = some false then -sc.queue.length else sc.queue.length

/-- The directions of the pending step, if there is one. -/
def State.pendingDirs (sc : State) : List Bool :=
  if sc.nextStepClock = 0 then [] else [sc.nextStepDir]

/-! ## Flushing -/

variable {fuel : Nat} {sc sc' : State}

/-- What a flush does to the steps, whatever their clocks: some of them leave the
    front of the queue and are in the position. -/
structure Drained (moveClock : WithTop Nat) (sc sc' : State) : Prop where
  same : SameSetup sc sc'
  queue : ∃ n, sc'.queue = sc.queue.drop n
  position : sc'.lastPosition + sc'.queuedSteps = sc.lastPosition + sc.queuedSteps
  ended : sc'.queue = [] ∨ moveClock ≤ sc'.lastStepClock

/-- One turn of the loop. -/
theorem addMove_position {move : StepMove} {clock pos : Nat}
    (hlen : move.count.toNat ≤ sc.queue.length) :
    State.lastPosition (addMove sc clock move)
        + State.queuedSteps { addMove sc clock move with
            queue := sc.queue.drop move.count.toNat, queuePos := pos }
      = sc.lastPosition + sc.queuedSteps := by
  show sc.lastPosition
      + (if sc.sdir = some false then -(move.count.toNat : ℤ)
          else move.count.toNat)
      + (if sc.sdir = some false
          then -((sc.queue.drop move.count.toNat).length : ℤ)
          else (sc.queue.drop move.count.toNat).length)
    = sc.lastPosition + if sc.sdir = some false then -(sc.queue.length : ℤ)
        else sc.queue.length
  have hdrop := length_drop (i := move.count.toNat) (l := sc.queue)
  split
  · omega
  · omega

variable {moveClock : WithTop Nat}

theorem queueFlush_drained
    (hok : queueFlush fuel moveClock sc = .ok sc') : Drained moveClock sc sc' := by
  obtain ⟨⟨hqueue, hposition⟩, hsame, hended⟩ := queueFlush_invariant
    (I := fun sc₁ => (∃ n, sc₁.queue = sc.queue.drop n) ∧
      sc₁.lastPosition + sc₁.queuedSteps = sc.lastPosition + sc.queuedSteps)
    (fun _ move _ ⟨⟨n, hqueue⟩, hposition⟩ _ hlen _ =>
      ⟨⟨n + move.count.toNat, by rw [State.sendMove, hqueue, drop_drop]⟩,
        (addMove_position hlen).trans hposition⟩)
    ⟨⟨0, rfl⟩, rfl⟩ hok
  exact ⟨hsame, hqueue, hposition, hended⟩

theorem queuedSteps_of_nil (hnil : sc.queue = []) : sc.queuedSteps = 0 := by
  rw [State.queuedSteps, hnil]
  split
  · rfl
  · rfl

/-- A full flush empties the queue. -/
theorem Drained.all (h : Drained ⊤ sc sc') : sc'.queue = [] := by
  rcases h.ended with hnil | htop
  · exact hnil
  · exact absurd htop (WithTop.coe_lt_top _).not_ge

/-! ## What has entered -/

/-- The steps that have entered are in the position or in the queue, those in the
    queue with the direction `sdir`. -/
structure Settled (p : ℤ) (sc : State) (entered : List Step) : Prop where
  position : sc.lastPosition + sc.queuedSteps = p + net (entered.map Step.dir)
  queue : ∃ done pend : List Step, entered = done ++ pend ∧
    sc.queue = pend.map (fun step => UInt32.ofNat step.clock) ∧
    ∀ step ∈ pend, sc.sdir = some step.dir

variable {p : ℤ} {entered : List Step} {d : Bool}

section Settled

variable (h : Settled p sc entered)
include h

theorem Settled.drained (hdrained : Drained moveClock sc sc') :
    Settled p sc' entered := by
  obtain ⟨n, hqueue⟩ := hdrained.queue
  obtain ⟨done, pend, hentered, hpend, hdirs⟩ := h.queue
  refine ⟨hdrained.position.trans h.position, done ++ pend.take n, pend.drop n, ?_, ?_, ?_⟩
  · rw [append_assoc, take_append_drop]
    exact hentered
  · rw [hqueue, hpend, map_drop]
  · intro step hstep
    rw [hdrained.same.sdir]
    exact hdirs step (mem_of_mem_drop hstep)

/-- With an empty queue the direction is free. -/
theorem Settled.turn (hnil : sc.queue = []) (hposition : sc'.lastPosition = sc.lastPosition)
    (hqueue : sc'.queue = []) : Settled p sc' entered := by
  refine ⟨?_, entered, [], (append_nil _).symm, hqueue, ?_⟩
  · rw [hposition, queuedSteps_of_nil hqueue, ← queuedSteps_of_nil hnil]
    exact h.position
  · exact nofun

/-- A step of the queue's direction is queued. -/
theorem Settled.push {t : Nat} (hdir : sc.sdir = some d) (hpushed : Pushed t sc sc') :
    Settled p sc' (entered ++ [⟨t, d⟩]) := by
  obtain ⟨done, pend, hentered, hpend, hdirs⟩ := h.queue
  refine ⟨?_, done, pend ++ [⟨t, d⟩], ?_, ?_, ?_⟩
  · have hsteps : sc'.queuedSteps = sc.queuedSteps + signed d 1 := by
      rw [State.queuedSteps, State.queuedSteps, hpushed.sdir, hpushed.queue, hdir,
        length_append, length_singleton]
      cases d with
      | true =>
        rw [if_neg nofun, if_neg nofun]
        exact Nat.cast_succ _
      | false =>
        rw [if_pos rfl, if_pos rfl, Nat.cast_add, neg_add]
        rfl
    rw [hpushed.lastPosition, hsteps, ← add_assoc, h.position, map_append, net_append, add_assoc]
    exact congrArg _ (congrArg _ (net_singleton d).symm)
  · rw [hentered, append_assoc]
  · rw [hpushed.queue, hpend, map_append]
    rfl
  · rw [hpushed.sdir]
    exact forall_mem_append.mpr ⟨hdirs, forall_mem_singleton.mpr hdir⟩

/-- A far step is sent by itself. -/
theorem Settled.flushFar {t : Nat} (hdir : sc.sdir = some d) (hnil : sc.queue = []) :
    Settled p (flushFar sc t) (entered ++ [⟨t, d⟩]) := by
  have hposition : (Stepcompress.flushFar sc t).lastPosition = sc.lastPosition + signed d 1 := by
    show sc.lastPosition + (if sc.sdir = some false then -1 else 1) = _
    rw [hdir]
    cases d with
    | true => rfl
    | false => rfl
  refine ⟨?_, entered ++ [⟨t, d⟩], [], (append_nil _).symm, hnil, ?_⟩
  · have hold := h.position
    rw [queuedSteps_of_nil hnil, add_zero] at hold
    have hnil' : (Stepcompress.flushFar sc t).queue = [] := hnil
    rw [queuedSteps_of_nil hnil', add_zero, hposition, hold, map_append, net_append, add_assoc]
    exact congrArg _ (congrArg _ (net_singleton d).symm)
  · exact nofun

/-! ## Entering the queue -/

theorem Settled.flushes (hf : Flushes fuel sc sc') :
    Settled p sc' entered ∧ sc'.sdir = sc.sdir := by
  rcases hf with rfl | ⟨next, moveClock, hflush⟩
  · exact ⟨h, rfl⟩
  · have hdrained := queueFlush_drained hflush
    have h₀ : Settled p { sc with nextStepClock := next } entered := { h with }
    exact ⟨h₀.drained hdrained, hdrained.same.sdir⟩

end Settled

/-- The directions of all steps that a stepper has: those that have entered, and the pending one. -/
def Host.kept (h : Host) : List Bool := h.entered.map Step.dir ++ h.sc.pendingDirs

variable {h h' : Host}

end Stepcompress
