import Pick.ToolheadClockProofs

/-! # Moves are queued ahead of the steps

Whatever is done with a toolhead, and whenever its timers and its paused
commands run, its log stays in order. -/

namespace Toolhead

open Lookahead (SquareRoot MoveData Junction Planned)

variable {K : Type} [Field K] [LinearOrder K] [IsStrictOrderedRing K]
  {root : SquareRoot K} {past : List (Event K)} {s : State K}

/-! ## Moves from the look-ahead queue -/

variable {queue : Lookahead.State K}

section

omit [IsStrictOrderedRing K]

theorem Sound.lookahead (h : Sound root past s) (hq : Lookahead.Invariant root queue) :
    Sound root past { s with lookahead := queue } :=
  ⟨hq, h.logged⟩

theorem Invariant.lookahead (h : Invariant root past s) (hq : Lookahead.Invariant root queue) :
    Invariant root past { s with lookahead := queue } :=
  ⟨h.toSound.lookahead hq, h.ahead⟩

theorem Sound.noteMcuMovequeueActivity (h : Sound root past s) (mqTime : K) (isStepGen : Bool) :
    Sound root past (s.noteMcuMovequeueActivity mqTime isStepGen) :=
  { h with }

end

/-- Moves that are returned have their times. -/
theorem flush_feasible (h : Lookahead.Invariant root queue) (lazy : Bool) :
    ∀ p ∈ (Lookahead.flush root lazy queue.queue).1,
      ∃ j, p.junction = some j ∧ Lookahead.Feasible root p.move j :=
  fun p hp => (h.flush lazy).1.feasible p (List.mem_append_right _ hp)

section Queuing

variable {start : State K} {r : State K × K} {p : Planned K}

theorem Queues.queueMove (h : Queues root past start r) (env : Env K)
    (hp : ∃ j, p.junction = some j ∧ Lookahead.Feasible root p.move j) :
    Queues root past start (queueMove env r p) := by
  obtain ⟨j, hj, hfeasible⟩ := hp
  rw [Toolhead.queueMove, hj]
  dsimp only
  split
  · exact ((h.trapqAppend p.move.data j).later hfeasible).timingCallbacks env _
  · exact (h.later hfeasible).timingCallbacks env _

theorem Queues.dripQueueMove (h : Queues root past start r)
    (hp : ∃ j, p.junction = some j ∧ Lookahead.Feasible root p.move j) :
    Queues root past start (dripQueueMove r p) := by
  obtain ⟨j, hj, hfeasible⟩ := hp
  rw [Toolhead.dripQueueMove, hj]
  exact (h.trapqAppend p.move.data j).later hfeasible

omit [IsStrictOrderedRing K] in
/-- One move after the other. -/
theorem Queues.foldl {queue : State K × K → Planned K → State K × K} {moves : List (Planned K)}
    (hqueue : ∀ p ∈ moves, ∀ r, Queues root past start r →
      Queues root past start (queue r p)) (h : Queues root past start r) :
    Queues root past start (moves.foldl queue r) :=
  List.foldlRecOn (motive := Queues root past start) moves queue h fun r hr p hp => hqueue p hp r hr

omit [IsStrictOrderedRing K] in
theorem queues_start (h : Sound root past s) (ha : s.Ahead) : Queues root past s (s, s.printTime) :=
  ⟨h, ⟨rfl, rfl, rfl⟩, rfl, rfl, ha⟩

omit [IsStrictOrderedRing K] in
/-- After the moves there is still room at `print_time`. -/
theorem Queues.ahead (h : Queues root past start r) (ha : start.Ahead) : r.1.Ahead := by
  rw [State.Ahead, h.minRestartTime, h.frame.kinFlushDelay, h.printTime]
  exact ha

end Queuing

theorem Invariant.submit (h : Invariant root past s) (m : Submitted K) :
    Invariant root past (s.submit root m) :=
  h.lookahead (h.planned.step (.addMove m.data m.eaV2))

/-- The drip move is queued at a new start. -/
theorem Invariant.dripLoadTrapq (h : Invariant root past s) (env : Env K)
    (submitMove : Option (Submitted K)) :
    Sound root past (s.dripLoadTrapq root env submitMove).1 := by
  have hadded : Sound root past (submitMove.elim s (State.submit root · s)) := by
    cases submitMove with
    | none => exact h.toSound
    | some m => exact (h.submit m).toSound
  have hflushed := hadded.lookahead (hadded.planned.flush false).1
  have hstart := queues_start (hflushed.calcPrintTime env) (calcPrintTime_ahead env _)
  have hqueued := hstart.foldl fun p hp r hr =>
    hr.dripQueueMove (flush_feasible hadded.planned false p hp)
  exact hqueued.sound.lookahead (Lookahead.invariant_init root)

omit [IsStrictOrderedRing K] in
/-- The background flushes leave a special state special. -/
theorem backgroundFlush_keeps (env : Env K) (estPrintTime : K) (s s' : State K)
    (h : Sound root past s ∧ s.specialQueuingState ≠ .main)
    (hs : s.backgroundFlush env estPrintTime = some s') :
    Sound root past s' ∧ s'.specialQueuingState ≠ .main := by
  rw [State.backgroundFlush] at hs
  dsimp only at hs
  split at hs
  · cases hs
  · split at hs
    · cases hs
    · cases hs
      refine ⟨h.1.advanceFlushTime env _, ?_⟩
      rw [(advanceFlushTime_frame env _ s).special]
      exact h.2

section Commands

variable [FloorSemiring K]

/-! ## Drip moves -/

/-- One segment keeps the invariant, and `print_time` comes closer to its end. -/
theorem Invariant.dripSegment {env : Env K} {nextPrintTime flushDelay : K}
    {s' : State K} (h : Invariant root past s)
    (hs : s.dripSegment env nextPrintTime flushDelay = some s') :
    Invariant root past s' ∧ s'.printTime
      = max s.printTime (min (s.printTime + dripSegmentTime) nextPrintTime) := by
  rw [State.dripSegment] at hs
  split at hs
  · cases hs
  · dsimp only at hs
    split at hs
    · cases hs
    · cases hs
      have hlooked : Sound root past { s with looks := s.looks + 1 } := { h with }
      have hnoted := hlooked.noteMcuMovequeueActivity
        (min (s.printTime + dripSegmentTime) nextPrintTime + s.kinFlushDelay) true
      refine ⟨⟨hnoted.advanceMoveTime env _, ?_⟩, hnoted.advanceMoveTime_printTime env _⟩
      rw [(hnoted.advanceMoveTime_frame env _).special]
      exact fun hmain => hnoted.advanceMoveTime_ahead env _ (h.ahead hmain)

theorem dripSegment_keeps (env : Env K) (nextPrintTime flushDelay : K)
    (s s' : State K) (h : Invariant root past s)
    (hs : s.dripSegment env nextPrintTime flushDelay = some s') :
    Invariant root past s' := (h.dripSegment hs).1

omit [IsStrictOrderedRing K] in
theorem flushStepGeneration_special (root : SquareRoot K) (env : Env K) (s : State K) :
    (s.flushStepGeneration root env).specialQueuingState = .needPrime :=
  (advanceFlushTime_frame env _ _).special

/-! ## What keeps the invariant -/

section Kept

variable (h : Invariant root past s) (env : Env K)
include h

/-- `_process_lookahead` keeps the invariant. -/
theorem Invariant.processLookahead (lazy : Bool) :
    Invariant root past (s.processLookahead root env lazy) := by
  have hflushed : Invariant root past
      { s with lookahead := s.lookahead.flush root lazy } :=
    h.lookahead (h.planned.flush lazy).1
  rw [State.processLookahead]
  dsimp only
  split
  · exact hflushed
  · obtain ⟨hsound, hmain, hahead⟩ := hflushed.resync env
    have hqueued := (queues_start hsound hahead).foldl fun p hp r hr =>
      hr.queueMove env (flush_feasible h.planned lazy p hp)
    have hnoted := hqueued.sound.noteMcuMovequeueActivity
    refine ⟨(hnoted _ _).advanceMoveTime env _, fun _ => ?_⟩
    exact (hnoted _ _).advanceMoveTime_ahead env _ (hqueued.ahead hahead)

/-- `_flush_lookahead` ends in a special state. -/
theorem Invariant.flushLookahead : Invariant root past (s.flushLookahead root env) := by
  have hp := h.processLookahead env false
  have hq := hp.planned.step (.setFlushTime bufferTimeHigh)
  exact Sound.special ⟨hq, hp.logged⟩ nofun

theorem Invariant.flushStepGeneration : Invariant root past (s.flushStepGeneration root env) := by
  have hf := (h.flushLookahead env).toSound.advanceFlushTime env
    (s.flushLookahead root env).stepGenTime
  refine Sound.special ⟨hf.planned, hf.logged.minRestartTime (le_max_left _ _)⟩ ?_
  rw [flushStepGeneration_special]
  exact nofun

/-- `get_last_move_time` leaves room for moves, in every state. -/
theorem Invariant.getLastMoveTime : Invariant root past (s.getLastMoveTime root env) := by
  rw [State.getLastMoveTime]
  split
  · exact h.processLookahead env false
  · exact ⟨(h.flushLookahead env).toSound.calcPrintTime env, fun _ => calcPrintTime_ahead env _⟩

/-- The segments end where the loop of the source ends or pauses. -/
theorem Invariant.dripSegments_end (nextPrintTime flushDelay : K) :
    State.dripSegment env nextPrintTime flushDelay
      (Loop.rounds (State.dripSegment env nextPrintTime flushDelay)
        ⌈(nextPrintTime - s.printTime) / dripSegmentTime⌉₊ s) = none := by
  have hpos : (0 : K) < dripSegmentTime := by
    rw [dripSegmentTime]
    positivity
  refine Loop.rounds_end (fun s => nextPrintTime - s.printTime) hpos.le
    (dripSegment_keeps env nextPrintTime flushDelay) ?_ ?_ _ h
    ((div_le_iff₀ hpos).mp (Nat.le_ceil _))
  · intro s hs
    rw [State.dripSegment, if_pos (.inl (sub_nonpos.mp hs))]
  · intro s s' h hs
    rw [(h.dripSegment hs).2]
    rcases min_cases (s.printTime + dripSegmentTime) nextPrintTime
      with ⟨hmin, -⟩ | ⟨hmin, -⟩
    · right
      have hmax : s.printTime + dripSegmentTime
          ≤ max s.printTime (s.printTime + dripSegmentTime) := le_max_right _ _
      rw [hmin]
      linarith only [hmax]
    · left
      rw [hmin]
      exact sub_nonpos.mpr (le_max_right _ _)

theorem Invariant.dripSegments (nextPrintTime flushDelay : K) :
    Invariant root past (s.dripSegments root env nextPrintTime flushDelay) := by
  have hloop := Loop.rounds_keep (dripSegment_keeps env nextPrintTime flushDelay)
    ⌈(nextPrintTime - s.printTime) / dripSegmentTime⌉₊ h
  rw [State.dripSegments]
  split
  · have hend := hloop.flushStepGeneration env
    exact ⟨⟨hend.planned, hend.logged.wipeTrapq⟩, hend.ahead⟩
  · exact ⟨{ hloop with }, hloop.ahead⟩

theorem Invariant.dripTransmit (submitMove : Option (Submitted K)) :
    Invariant root past (s.dripTransmit root env submitMove) := by
  have hl := (h.processLookahead env false).dripLoadTrapq env submitMove
  have hq := hl.planned.step (.setFlushTime bufferTimeHigh)
  refine Invariant.dripSegments ?_ env _ _
  exact Sound.special ⟨hq, hl.logged⟩ nofun

/-! ## Pauses -/

theorem Invariant.proceed (after : After K) : Invariant root past (s.proceed root env after) := by
  cases after with
  | nothing => exact h
  | dripMove submitMove => exact h.dripTransmit env submitMove

theorem Invariant.checkBuffer (estPrintTime : K) (after : After K) :
    Invariant root past (s.checkBuffer root env estPrintTime after) := by
  rw [State.checkBuffer]
  dsimp only
  split
  · refine Invariant.proceed ?_ env after
    split
    · exact { h with }
    · exact h
  · split
    · refine Invariant.proceed ?_ env after
      exact { h with }
    · exact { h with }

theorem Invariant.checkPause (after : After K) :
    Invariant root past (s.checkPause root env after) := by
  rw [State.checkPause]
  refine Invariant.checkBuffer ?_ env _ after
  split
  · exact { h with }
  · exact Sound.special { h with } nofun

theorem Invariant.resume (i : Nat) : Invariant root past (s.resume root env i) := by
  rw [State.resume]
  split
  · exact h
  · rename_i p _
    cases p with
    | checkPause after =>
      refine Invariant.checkBuffer ?_ env _ after
      exact { h with }
    | dripUpdateTime nextPrintTime flushDelay =>
      refine Invariant.dripSegments ?_ env _ _
      exact { h with }

/-! ## Commands and timers -/

theorem Invariant.move (m : Submitted K) : Invariant root past (s.move root env m) := by
  have hpause : ∀ s : State K, Invariant root past s → Invariant root past
      (if s.needCheckPause < s.printTime then s.checkPause root env .nothing
        else s) := by
    intro s hs
    split
    · exact hs.checkPause env .nothing
    · exact hs
  have hadded := h.submit m
  rw [State.move]
  split
  · exact hpause _ (hadded.processLookahead env true)
  · exact hpause _ hadded

theorem Invariant.dwell (delay : K)
    (after : After K) : Invariant root past (s.dwell root env delay after) := by
  have hlast := h.getLastMoveTime env
  refine Invariant.checkPause ⟨hlast.toSound.advanceMoveTime env _, ?_⟩ env after
  rw [(hlast.toSound.advanceMoveTime_frame env _).special]
  exact fun hmain => hlast.toSound.advanceMoveTime_ahead env _ (hlast.ahead hmain)

theorem Invariant.primingHandler : Invariant root past (s.primingHandler root env) := by
  rw [State.primingHandler]
  split
  · have hl := h.flushLookahead env
    exact { hl with }
  · exact h

theorem Invariant.flushHandler (passes : Nat) :
    Invariant root past (s.flushHandler root env passes) := by
  have hbackground : ∀ {s : State K} (est : K), Sound root past s →
      s.specialQueuingState ≠ .main → Invariant root past
        (Loop.rounds (State.backgroundFlush env est) passes s) := by
    intro s est hsound hspecial
    obtain ⟨hs, hs'⟩ := Loop.rounds_keep (backgroundFlush_keeps env est) passes ⟨hsound, hspecial⟩
    exact hs.special hs'
  have hlooked : Invariant root past { s with looks := s.looks + 1 } := { h with }
  rw [State.flushHandler]
  dsimp only
  split
  · split
    · exact hlooked
    · have hl := hlooked.flushLookahead env
      split
      · exact hbackground _ { hl with } nofun
      · exact hbackground _ hl.toSound nofun
  · exact hbackground _ hlooked.toSound ‹_›

theorem Invariant.noteStepGenerationScanTime (delay oldDelay : K) :
    Invariant root past (s.noteStepGenerationScanTime root env delay oldDelay) := by
  have hf := h.flushStepGeneration env
  refine Sound.special { hf with } ?_
  rw [State.noteStepGenerationScanTime, flushStepGeneration_special]
  exact nofun

/-! ## Runs -/

/-- **EVERY OPERATION KEEPS THE INVARIANT**. -/
theorem Invariant.step (op : Op K) : Invariant root past (s.step root env op) := by
  cases op with
  | move m => exact h.move env m
  | limitNextJunctionSpeed speed =>
    exact h.lookahead (h.planned.step (.limitNextJunctionSpeed speed))
  | processLookahead lazy => exact h.processLookahead env lazy
  | dwell delay => exact h.dwell env delay .nothing
  | dripMove submitMove => exact h.dwell env _ (.dripMove submitMove)
  | flushLookahead => exact h.flushLookahead env
  | flushStepGeneration => exact h.flushStepGeneration env
  | getLastMoveTime => exact h.getLastMoveTime env
  | primingHandler => exact h.primingHandler env
  | flushHandler passes => exact h.flushHandler env passes
  | resume i => exact h.resume env i
  | noteMcuMovequeueActivity mqTime isStepGen =>
    exact ⟨h.toSound.noteMcuMovequeueActivity mqTime isStepGen, h.ahead⟩
  | noteStepGenerationScanTime delay oldDelay =>
    exact h.noteStepGenerationScanTime env delay oldDelay
  | handleShutdown => exact ⟨⟨Lookahead.invariant_init root, h.logged⟩, h.ahead⟩

end Kept

omit [FloorSemiring K] in
theorem invariant_init (root : SquareRoot K) (canPause : Bool) :
    Invariant root [] (State.init canPause) := by
  have hq := (Lookahead.invariant_init root).step (.setFlushTime bufferTimeHigh)
  refine Sound.special ⟨hq, le_rfl, List.mem_cons_self,
    List.mem_cons_of_mem _ List.mem_cons_self, List.nil_prefix, ?_, ?_⟩ nofun
  · intro e he
    rcases List.mem_cons.mp he with rfl | he
    · exact le_rfl
    · rw [List.mem_singleton.mp he]
      exact le_rfl
  · refine List.pairwise_cons.mpr ⟨?_, List.pairwise_singleton _ _⟩
    intro e he
    rw [List.mem_singleton.mp he]
    trivial

theorem Invariant.foldl (h : Invariant root past s) (env : Env K) (ops : List (Op K)) :
    Invariant root past (ops.foldl (State.step root env) s) :=
  List.foldlRecOn (motive := Invariant root past) ops _ h fun _ hs op _ => hs.step env op

omit [IsStrictOrderedRing K] [FloorSemiring K] in
/-- The invariant holds from any time of a run on. -/
theorem Invariant.onward (h : Invariant root past s) : Invariant root s.log s :=
  ⟨⟨h.planned, h.logged.flushed, h.logged.printed, h.logged.sent,
    List.prefix_rfl, h.logged.passed, h.logged.inOrder⟩, h.ahead⟩

/-- **MOVES ARE NEVER QUEUED INTO TIME ALREADY STEPPED**, and the clocks do not
    go back: neither within an operation nor from one to a later one. -/
theorem queued_ahead_of_steps (root : SquareRoot K) (env : Env K)
    (canPause : Bool) (ops later : List (Op K)) :
    (run root env canPause ops).log.Pairwise Event.InOrder ∧
      (run root env canPause ops).printTime
        ≤ (run root env canPause (ops ++ later)).printTime ∧
      (run root env canPause ops).lastFlushTime
        ≤ (run root env canPause (ops ++ later)).lastFlushTime := by
  have hrun := (invariant_init root canPause).foldl env ops
  have hlater := hrun.onward.foldl env later
  rw [run, run, List.foldl_append]
  refine ⟨hrun.logged.inOrder, ?_, ?_⟩
  · exact hlater.logged.passed _ (hlater.logged.since.subset hrun.logged.printed)
  · exact hlater.logged.passed _ (hlater.logged.since.subset hrun.logged.sent)

end Commands

/-! ### A drip move between two moves -/

section

/-- A root that is exact for the squared speeds zero and one. -/
def unitRoot : SquareRoot ℚ where
  sqrt x := max x 0
  nonneg _ := le_max_right _ 0
  pos _ h := lt_max_of_lt_left h

/-- A millimetre along `x`: one second up to a speed of one and one down. -/
def millimetre : Submitted ℚ where
  data :=
    { moveD := 1
      accel := 1
      maxCruiseV2 := 1
      smoothDeltaV2 := 2
      junctionDeviation := 0
      minMoveT := 1
      isKinematicMove := true
      axesR := (1, 0, 0)
      moveD_pos := by decide
      accel_pos := by decide
      maxCruiseV2_pos := by decide
      smoothDeltaV2_pos := by decide
      smoothDeltaV2_le := by decide +kernel
      junctionDeviation_nonneg := by decide }
  eaV2 := []

/-- Every look is a tenth of a second later, and the drip move ends at the ninth. -/
def tenths : Env ℚ := ⟨fun n => n / 10, fun n => decide (8 ≤ n), fun _ => []⟩

/-- A drip move between two moves. -/
def dripBetween : List (Op ℚ) :=
  [.move millimetre, .primingHandler, .flushHandler 2,
    .dripMove (some millimetre), .flushHandler 2, .resume 0,
    .move millimetre, .processLookahead false]

/-- The time of a queued move. -/
def Event.appended : Event ℚ → Option ℚ
  | .trapqAppend t _ _ _ => some t
  | _ => none

/-- The last move starts a thousandth after the steps of the drip move. -/
theorem queued_ahead_of_steps_drip :
    (run unitRoot tenths true dripBetween).log.filterMap Event.appended
      = [7 / 20, 2351 / 1000, 2352 / 1000] ∧
    (run unitRoot tenths true dripBetween).log.Pairwise Event.InOrder ∧
    (run unitRoot tenths true dripBetween).lastFlushTime
      ≤ (run unitRoot tenths true (dripBetween ++ [.flushStepGeneration])).lastFlushTime := by
  have h := queued_ahead_of_steps unitRoot tenths true dripBetween [.flushStepGeneration]
  exact ⟨by decide +kernel, h.1, h.2.2⟩

end

end Toolhead
