import Pick.ToolheadProofs

/-! # The clocks and the log of the toolhead

The log of a toolhead is in order if each `trapq_append` starts at least
`kin_flush_delay` after the steps that have been asked for before, and
`print_time` and `last_flush_time` do not decrease.

`min_restart_time` bounds what has been asked for.  In the main state
`print_time` is ahead of it by `kin_flush_delay`; the special states give
this up, and `_calc_print_time` restores it before moves are queued. -/

namespace Toolhead

open Lookahead (SquareRoot MoveData Junction Planned)

variable {K : Type} [Field K] [LinearOrder K]

/-- **THE ORDER OF THE LOG**, for an event and a later one. -/
def Event.InOrder : Event K → Event K → Prop
  | .printTime t, .printTime t' => t ≤ t'
  | .lastFlushTime t, .lastFlushTime t' => t ≤ t'
  | .flushMotionQueues _ maxStepGenTime _, .trapqAppend t kinFlushDelay _ _ =>
    maxStepGenTime + kinFlushDelay ≤ t
  | _, _ => True

/-- An event is not after the clocks. -/
def Event.Passed (printTime lastFlushTime minRestartTime : K) : Event K → Prop
  | .printTime t => t ≤ printTime
  | .lastFlushTime t => t ≤ lastFlushTime
  | .flushMotionQueues _ maxStepGenTime _ => maxStepGenTime ≤ minRestartTime
  | _ => True

/-- The log goes on from `past` and has the values of the clocks in it. -/
structure Logged (past : List (Event K))
    (printTime lastFlushTime minRestartTime : K) (log : List (Event K)) : Prop where
  flushed : lastFlushTime ≤ minRestartTime
  printed : .printTime printTime ∈ log
  sent : .lastFlushTime lastFlushTime ∈ log
  since : past <+: log
  passed : ∀ e ∈ log, e.Passed printTime lastFlushTime minRestartTime
  inOrder : log.Pairwise Event.InOrder

/-- What holds at all times. -/
structure Sound (root : SquareRoot K) (past : List (Event K)) (s : State K) : Prop where
  planned : Lookahead.Invariant root s.lookahead
  logged : Logged past s.printTime s.lastFlushTime s.minRestartTime s.log

/-- Moves can be queued at `print_time`. -/
def State.Ahead (s : State K) : Prop := s.minRestartTime + s.kinFlushDelay ≤ s.printTime

/-- **WHAT HOLDS BETWEEN OPERATIONS**. -/
structure Invariant (root : SquareRoot K) (past : List (Event K))
    (s : State K) : Prop extends Sound root past s where
  ahead : s.specialQueuingState = .main → s.Ahead

variable {root : SquareRoot K} {past : List (Event K)} {env : Env K}
  {s s' : State K}

theorem Sound.special (h : Sound root past s)
    (hs : s.specialQueuingState ≠ .main) : Invariant root past s :=
  ⟨h, fun hmain => absurd hmain hs⟩

/-! ## One event -/

section Log

variable {p p' f f' m m' : K} {e : Event K} {log : List (Event K)}

theorem Event.Passed.mono (h : e.Passed p f m) (hp : p ≤ p') (hf : f ≤ f')
    (hm : m ≤ m') : e.Passed p' f' m' := by
  cases e with
  | printTime t => exact h.trans hp
  | lastFlushTime t => exact h.trans hf
  | flushMotionQueues flush sg free => exact h.trans hm
  | trapqAppend t delay d j => trivial
  | timingCallbacks t => trivial
  | wipeTrapq => trivial

variable (h : Logged past p f m log)
include h

/-- One event is added, and the clocks do not go back. -/
theorem Logged.extend (hp : p ≤ p') (hf : f ≤ f')
    (hflushed : f' ≤ m) (hprinted : .printTime p' ∈ log ++ [e])
    (hsent : .lastFlushTime f' ∈ log ++ [e]) (hpassed : e.Passed p' f' m)
    (horder : ∀ d ∈ log, d.InOrder e) : Logged past p' f' m (log ++ [e]) := by
  refine ⟨hflushed, hprinted, hsent, h.since.trans (List.prefix_append _ _), ?_, ?_⟩
  · exact List.forall_mem_append.mpr ⟨fun d hd => (h.passed d hd).mono hp hf le_rfl,
      List.forall_mem_singleton.mpr hpassed⟩
  · refine List.pairwise_append.mpr ⟨h.inOrder, List.pairwise_singleton _ _, ?_⟩
    intro d hd e' he'
    rw [List.mem_singleton.mp he']
    exact horder d hd

/-- An event that is not about the clocks. -/
theorem Logged.record (hpassed : e.Passed p f m)
    (horder : ∀ d ∈ log, d.InOrder e) : Logged past p f m (log ++ [e]) :=
  h.extend le_rfl le_rfl h.flushed (List.mem_append_left _ h.printed)
    (List.mem_append_left _ h.sent) hpassed horder

theorem Logged.printTime (hp : p ≤ p') : Logged past p' f m (log ++ [.printTime p']) := by
  refine h.extend hp le_rfl h.flushed List.mem_concat_self (List.mem_append_left _ h.sent) le_rfl ?_
  intro d hd
  cases d with
  | printTime t => exact (h.passed _ hd).trans hp
  | _ => trivial

theorem Logged.lastFlushTime (hf : f ≤ f')
    (hm : f' ≤ m) : Logged past p f' m (log ++ [.lastFlushTime f']) := by
  refine h.extend le_rfl hf hm (List.mem_append_left _ h.printed) List.mem_concat_self le_rfl ?_
  intro d hd
  cases d with
  | lastFlushTime t => exact (h.passed _ hd).trans hf
  | _ => trivial

/-- More steps may be asked for at any time. -/
theorem Logged.minRestartTime (hm : m ≤ m') : Logged past p f m' log :=
  ⟨h.flushed.trans hm, h.printed, h.sent, h.since,
    fun d hd => (h.passed d hd).mono le_rfl le_rfl hm, h.inOrder⟩

theorem Logged.flushMotionQueues {sg : K} (hsg : sg ≤ m) (flush free : K) :
    Logged past p f m (log ++ [.flushMotionQueues flush sg free]) := by
  refine h.record hsg ?_
  intro d hd
  cases d <;> trivial

/-- Moves are queued after what has been asked for. -/
theorem Logged.trapqAppend [IsStrictOrderedRing K] {t delay : K} (ht : m + delay ≤ t)
    (d : MoveData K) (j : Junction K) : Logged past p f m (log ++ [.trapqAppend t delay d j]) := by
  refine h.record trivial ?_
  intro e he
  cases e with
  | flushMotionQueues flush sg free => exact (add_le_add_left (h.passed _ he) delay).trans ht
  | _ => trivial

theorem Logged.timingCallbacks (t : K) : Logged past p f m (log ++ [.timingCallbacks t]) := by
  refine h.record trivial ?_
  intro d hd
  cases d <;> trivial

theorem Logged.wipeTrapq : Logged past p f m (log ++ [.wipeTrapq]) := by
  refine h.record trivial ?_
  intro d hd
  cases d <;> trivial

end Log

/-! ## Advancing the clocks -/

/-- Callbacks change the times of activity only. -/
theorem callbacks_eq (env : Env K) (s : State K) :
    ∃ need gen, s.callbacks env = { s with needFlushTime := need, stepGenTime := gen } := by
  rw [State.callbacks]
  generalize env.notes s.log.length = notes
  induction notes generalizing s with
  | nil => exact ⟨_, _, rfl⟩
  | cons note notes ih =>
    obtain ⟨need, gen, h⟩ := ih (s.noteMcuMovequeueActivity note.1 note.2)
    exact ⟨need, gen, h⟩

/-- `sg_flush_time`. -/
def State.sgFlushTime (s : State K) (flushTime : K) : K :=
  max (min (max flushTime s.lastFlushTime + stepcompressFlushTime)
    (s.printTime - s.kinFlushDelay)) (max flushTime s.lastFlushTime)

/-- What no clock function touches. -/
structure Frame (s s' : State K) : Prop where
  kinFlushDelay : s'.kinFlushDelay = s.kinFlushDelay
  special : s'.specialQueuingState = s.specialQueuingState
  lookahead : s'.lookahead = s.lookahead

theorem Frame.trans {s'' : State K} (h : Frame s s') (h' : Frame s' s'') : Frame s s'' :=
  ⟨h'.kinFlushDelay.trans h.kinFlushDelay, h'.special.trans h.special,
    h'.lookahead.trans h.lookahead⟩

section Flush

variable (env : Env K) (flushTime : K) (s : State K)

/-- **WHAT A FLUSH DOES**. -/
theorem advanceFlushTime_eq : ∃ need gen, s.advanceFlushTime env flushTime
      = State.setLastFlushTime (max flushTime s.lastFlushTime)
          { s.record (.flushMotionQueues (max flushTime s.lastFlushTime) (s.sgFlushTime flushTime)
              (s.sgFlushTime flushTime - s.kinFlushDelay)) with
            needFlushTime := need
            stepGenTime := gen
            minRestartTime := max s.minRestartTime (s.sgFlushTime flushTime) } := by
  obtain ⟨need, gen, h⟩ := callbacks_eq env
    (s.record (.flushMotionQueues (max flushTime s.lastFlushTime)
      (s.sgFlushTime flushTime) (s.sgFlushTime flushTime - s.kinFlushDelay)))
  refine ⟨need, gen, ?_⟩
  rw [State.advanceFlushTime]
  show State.setLastFlushTime _ { State.callbacks env _ with
    minRestartTime := max (State.callbacks env _).minRestartTime _ } = _
  rw [← State.sgFlushTime, h]
  rfl

theorem advanceFlushTime_frame : Frame s (s.advanceFlushTime env flushTime) := by
  obtain ⟨need, gen, h⟩ := advanceFlushTime_eq env flushTime s
  rw [h]
  exact ⟨rfl, rfl, rfl⟩

theorem advanceFlushTime_times :
    (s.advanceFlushTime env flushTime).printTime = s.printTime ∧
      (s.advanceFlushTime env flushTime).lastFlushTime = max flushTime s.lastFlushTime ∧
      (s.advanceFlushTime env flushTime).minRestartTime
        = max s.minRestartTime (s.sgFlushTime flushTime) := by
  obtain ⟨need, gen, h⟩ := advanceFlushTime_eq env flushTime s
  rw [h]
  exact ⟨rfl, rfl, rfl⟩

end Flush

theorem Sound.advanceFlushTime (h : Sound root past s) (env : Env K)
    (flushTime : K) : Sound root past (s.advanceFlushTime env flushTime) := by
  obtain ⟨need, gen, heq⟩ := advanceFlushTime_eq env flushTime s
  rw [heq]
  -- the flush is recorded before the clock that bounds it is raised
  have hraised := h.logged.minRestartTime (le_max_left s.minRestartTime (s.sgFlushTime flushTime))
  have hflushed := hraised.flushMotionQueues (le_max_right _ _)
    (max flushTime s.lastFlushTime) (s.sgFlushTime flushTime - s.kinFlushDelay)
  refine ⟨h.planned, hflushed.lastFlushTime (le_max_right _ _) ?_⟩
  exact (le_max_right _ _).trans (le_max_right _ _)

section Times

variable [IsStrictOrderedRing K]

/-- A flush that is not too late leaves room for moves. -/
theorem State.Ahead.advanceFlushTime (h : s.Ahead)
    (hflushed : s.lastFlushTime ≤ s.minRestartTime) {flushTime : K}
    (hle : flushTime + s.kinFlushDelay ≤ s.printTime) (env : Env K) :
    (s.advanceFlushTime env flushTime).Ahead := by
  obtain ⟨hprint, -, hmin⟩ := advanceFlushTime_times env flushTime s
  rw [State.Ahead, hmin, hprint, (advanceFlushTime_frame env flushTime s).kinFlushDelay,
    ← le_sub_iff_add_le]
  have hrestart : s.minRestartTime ≤ s.printTime - s.kinFlushDelay := le_sub_iff_add_le.mpr h
  have hflush : max flushTime s.lastFlushTime ≤ s.printTime - s.kinFlushDelay :=
    max_le (le_sub_iff_add_le.mpr hle) (hflushed.trans hrestart)
  exact max_le hrestart (max_le (min_le_right _ _) hflush)

/-! ## Resynchronisation -/

omit [IsStrictOrderedRing K] in
theorem Sound.calcPrintTime (h : Sound root past s) (env : Env K) :
    Sound root past (s.calcPrintTime env) := by
  rw [State.calcPrintTime]
  dsimp only
  split
  · exact ⟨h.planned, h.logged.printTime (le_of_lt ‹_›)⟩
  · exact { h with }

omit [IsStrictOrderedRing K] in
theorem calcPrintTime_frame (env : Env K) (s : State K) : Frame s (s.calcPrintTime env) := by
  rw [State.calcPrintTime]
  dsimp only
  split
  · exact ⟨rfl, rfl, rfl⟩
  · exact ⟨rfl, rfl, rfl⟩

/-- **A NEW START LEAVES ROOM FOR MOVES**. -/
theorem calcPrintTime_ahead (env : Env K) (s : State K) : (s.calcPrintTime env).Ahead := by
  have hroom : s.minRestartTime + s.kinFlushDelay
      ≤ max (env.estimatedPrintTime s.looks + bufferTimeStart)
        (max (env.estimatedPrintTime s.looks + minKinTime) s.minRestartTime + s.kinFlushDelay) :=
    (add_le_add_left (le_max_right _ _) _).trans (le_max_right _ _)
  rw [State.calcPrintTime]
  dsimp only
  split
  · exact hroom
  · exact hroom.trans (not_lt.mp ‹_›)

/-- What a special state gives up is there again in the main state. -/
theorem Invariant.resync (h : Invariant root past s) (env : Env K) :
    Sound root past (s.resync env) ∧ (s.resync env).specialQueuingState = .main ∧
      (s.resync env).Ahead := by
  rw [State.resync]
  split
  · exact ⟨h.toSound, ‹_›, h.ahead ‹_›⟩
  · have hmain : Sound root past
        { s with specialQueuingState := .main, needCheckPause := -1 } :=
      { h with }
    exact ⟨hmain.calcPrintTime env, (calcPrintTime_frame env _).special, calcPrintTime_ahead env _⟩

/-! ## Queuing moves -/

/-- What holds while moves are queued from `r.2` on. -/
structure Queues (root : SquareRoot K) (past : List (Event K))
    (start : State K) (r : State K × K) : Prop where
  sound : Sound root past r.1
  frame : Frame start r.1
  printTime : r.1.printTime = start.printTime
  minRestartTime : r.1.minRestartTime = start.minRestartTime
  room : start.minRestartTime + start.kinFlushDelay ≤ r.2

variable {start : State K} {r : State K × K} {p : Planned K}

/-- The move at hand can be queued. -/
theorem Queues.trapqAppend (h : Queues root past start r) (m : MoveData K) (j : Junction K) :
    Queues root past start (r.1.record (.trapqAppend r.2 r.1.kinFlushDelay m j), r.2) := by
  refine ⟨⟨h.sound.planned, h.sound.logged.trapqAppend ?_ m j⟩,
    h.frame.trans ⟨rfl, rfl, rfl⟩, h.printTime, h.minRestartTime, h.room⟩
  rw [h.minRestartTime, h.frame.kinFlushDelay]
  exact h.room

/-- The move after it starts later. -/
theorem Queues.later (h : Queues root past start r) {j : Junction K}
    (hj : Lookahead.Feasible root p.move j) :
    Queues root past start (r.1, r.2 + j.accelT + j.cruiseT + j.decelT) := by
  refine { h with room := h.room.trans ?_ }
  have haccel := hj.accelT_nonneg
  have hcruise := hj.cruiseT_nonneg
  have hdecel := hj.decelT_nonneg
  show r.2 ≤ r.2 + j.accelT + j.cruiseT + j.decelT
  linarith only [haccel, hcruise, hdecel]

omit [IsStrictOrderedRing K] in
theorem Queues.timingCallbacks (h : Queues root past start r) (env : Env K) (t : K) :
    Queues root past start ((r.1.record (.timingCallbacks t)).callbacks env, r.2) := by
  obtain ⟨need, gen, hc⟩ := callbacks_eq env (r.1.record (.timingCallbacks t))
  rw [hc]
  exact ⟨⟨h.sound.planned, h.sound.logged.timingCallbacks t⟩,
    h.frame.trans ⟨rfl, rfl, rfl⟩, h.printTime, h.minRestartTime, h.room⟩

/-! ## The time of moves -/

theorem moveBatchTime_pos : (0 : K) < moveBatchTime := by
  rw [moveBatchTime]
  positivity

/-- What the passes of `_advance_move_time` keep. -/
structure Batches (root : SquareRoot K) (past : List (Event K))
    (wantFlushTime : K) (start : State K) (r : K × State K) : Prop where
  sound : Sound root past r.2
  frame : Frame start r.2
  printTime : r.2.printTime = start.printTime
  ahead : start.Ahead → wantFlushTime + start.kinFlushDelay ≤ start.printTime → r.2.Ahead
  le_want : r.1 ≤ wantFlushTime

theorem Batches.flushBatch {start : State K} {wantFlushTime : K}
    {r : K × State K} (h : Batches root past wantFlushTime start r) (env : Env K) :
    Batches root past wantFlushTime start (flushBatch env wantFlushTime r) := by
  have hle : min (r.1 + moveBatchTime) wantFlushTime ≤ wantFlushTime := min_le_right _ _
  refine ⟨h.sound.advanceFlushTime env _, h.frame.trans (advanceFlushTime_frame env _ _),
    (advanceFlushTime_times env _ _).1.trans h.printTime, ?_, hle⟩
  intro hahead hwant
  refine (h.ahead hahead hwant).advanceFlushTime h.sound.logged.flushed ?_ env
  rw [h.frame.kinFlushDelay, h.printTime]
  exact (add_le_add_left hle _).trans hwant

omit [IsStrictOrderedRing K] in
theorem le_flushBatch (env : Env K) (wantFlushTime : K) (r : K × State K) :
    (flushBatch env wantFlushTime r).1 ≤ (flushBatch env wantFlushTime r).2.lastFlushTime := by
  rw [flushBatch, (advanceFlushTime_times _ _ _).2.1]
  exact le_max_left _ _

/-- Enough passes reach the wanted time: each comes closer by a batch, or is the last. -/
theorem nextBatch_reaches (env : Env K) {wantFlushTime : K} {n : Nat}
    {r : K × State K} (hn : wantFlushTime - r.1 ≤ n * moveBatchTime) :
    wantFlushTime ≤ (Loop.rounds (nextBatch env wantFlushTime) n r).1 := by
  have hend : nextBatch env wantFlushTime
      (Loop.rounds (nextBatch env wantFlushTime) n r) = none := by
    refine Loop.rounds_end (P := fun _ => True) (fun r => wantFlushTime - r.1)
      moveBatchTime_pos.le (fun _ _ h _ => h) ?_ ?_ n trivial hn
    · intro r hr
      rw [nextBatch, if_pos (sub_nonpos.mp hr)]
    · intro r r' _ hnext
      rw [nextBatch] at hnext
      split at hnext
      · cases hnext
      · cases hnext
        show _ - min (r.1 + moveBatchTime) _ ≤ 0 ∨
          _ - min (r.1 + moveBatchTime) _ + moveBatchTime ≤ _
        rcases min_cases (r.1 + moveBatchTime) wantFlushTime
          with ⟨hmin, -⟩ | ⟨hmin, -⟩
        · right
          rw [hmin]
          linarith only
        · left
          rw [hmin, sub_self]
  rw [nextBatch] at hend
  split at hend
  · assumption
  · cases hend

variable [FloorSemiring K]

/-- `_advance_move_time` before its loop, with `flush_time`. -/
def State.batchStart (s : State K) (nextPrintTime : K) : K × State K :=
  (max s.lastFlushTime (s.printTime - (s.kinFlushDelay + stepcompressFlushTime)),
    s.setPrintTime (max s.printTime nextPrintTime))

/-- `want_flush_time` in `_advance_move_time`. -/
def State.wantFlushTime (s : State K) (nextPrintTime : K) : K :=
  max (s.batchStart nextPrintTime).1
    (max s.printTime nextPrintTime - (s.kinFlushDelay + stepcompressFlushTime))

variable (h : Sound root past s) (env : Env K) (nextPrintTime : K)
include h

/-- The loop keeps what its passes keep, and everything up to `want_flush_time`
    is sent when it ends. -/
theorem advanceMoveTime_batches :
    ∃ r, s.advanceMoveTime env nextPrintTime = r.2 ∧
      Batches root past (s.wantFlushTime nextPrintTime)
        (s.batchStart nextPrintTime).2 r ∧
      s.wantFlushTime nextPrintTime ≤ r.2.lastFlushTime := by
  have hstart : Batches root past (s.wantFlushTime nextPrintTime)
      (s.batchStart nextPrintTime).2 (s.batchStart nextPrintTime) :=
    ⟨⟨h.planned, h.logged.printTime (le_max_left _ _)⟩, ⟨rfl, rfl, rfl⟩, rfl,
      fun ha _ => ha, le_max_left _ _⟩
  obtain ⟨n, hn, heq⟩ : ∃ n : Nat,
      s.wantFlushTime nextPrintTime - (s.batchStart nextPrintTime).1 ≤ n * moveBatchTime ∧
      s.advanceMoveTime env nextPrintTime
        = (Loop.rounds (nextBatch env (s.wantFlushTime nextPrintTime)) n
          (flushBatch env (s.wantFlushTime nextPrintTime)
            (s.batchStart nextPrintTime))).2 :=
    ⟨_, (div_le_iff₀ moveBatchTime_pos).mp (Nat.le_ceil _), rfl⟩
  have hround : ∀ r r' : K × State K,
      Batches root past (s.wantFlushTime nextPrintTime)
        (s.batchStart nextPrintTime).2 r ∧ r.1 ≤ r.2.lastFlushTime →
      nextBatch env (s.wantFlushTime nextPrintTime) r = some r' →
      Batches root past (s.wantFlushTime nextPrintTime)
        (s.batchStart nextPrintTime).2 r' ∧ r'.1 ≤ r'.2.lastFlushTime := by
    rintro r r' ⟨hb, -⟩ hnext
    rw [nextBatch] at hnext
    split at hnext
    · cases hnext
    · cases hnext
      exact ⟨hb.flushBatch env, le_flushBatch env _ r⟩
  obtain ⟨hkept, hsent⟩ := Loop.rounds_keep hround n ⟨hstart.flushBatch env, le_flushBatch env _ _⟩
  have hfirst : (s.batchStart nextPrintTime).1
      ≤ (flushBatch env (s.wantFlushTime nextPrintTime)
        (s.batchStart nextPrintTime)).1 :=
    le_min (le_add_of_nonneg_right moveBatchTime_pos.le) hstart.le_want
  have hreached := nextBatch_reaches env ((sub_le_sub_left hfirst _).trans hn)
  exact ⟨_, heq, hkept, hreached.trans hsent⟩

theorem Sound.advanceMoveTime : Sound root past (s.advanceMoveTime env nextPrintTime) := by
  obtain ⟨r, hr, hb, -⟩ := advanceMoveTime_batches h env nextPrintTime
  rw [hr]
  exact hb.sound

theorem Sound.advanceMoveTime_frame : Frame s (s.advanceMoveTime env nextPrintTime) := by
  obtain ⟨r, hr, hb, -⟩ := advanceMoveTime_batches h env nextPrintTime
  rw [hr]
  exact ⟨hb.frame.kinFlushDelay, hb.frame.special, hb.frame.lookahead⟩

theorem Sound.advanceMoveTime_printTime :
    (s.advanceMoveTime env nextPrintTime).printTime = max s.printTime nextPrintTime := by
  obtain ⟨r, hr, hb, -⟩ := advanceMoveTime_batches h env nextPrintTime
  rw [hr]
  exact hb.printTime

theorem Sound.advanceMoveTime_ahead (ha : s.Ahead) :
    (s.advanceMoveTime env nextPrintTime).Ahead := by
  obtain ⟨r, hr, hb, -⟩ := advanceMoveTime_batches h env nextPrintTime
  rw [hr]
  have hle : s.printTime ≤ max s.printTime nextPrintTime := le_max_left _ _
  have hflush : (0 : K) ≤ stepcompressFlushTime := by
    rw [stepcompressFlushTime]
    positivity
  have hrestart : s.minRestartTime + s.kinFlushDelay ≤ s.printTime := ha
  refine hb.ahead (ha.trans hle) ?_
  show s.wantFlushTime nextPrintTime + s.kinFlushDelay ≤ max s.printTime nextPrintTime
  rw [← le_sub_iff_add_le]
  refine max_le (max_le ?_ ?_) ?_
  · linarith only [h.logged.flushed, hrestart, hle]
  · linarith only [hflush, hle]
  · linarith only [hflush]

end Times

end Toolhead
