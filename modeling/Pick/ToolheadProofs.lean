import Pick.LookaheadRunProofs
import Pick.RunProofs

/-! # The clocks of the toolhead (`klippy/toolhead.py`)

`ToolHead` takes moves from the look-ahead queue, gives them their times and
has the steps of past times generated.  It keeps three clocks: `print_time`,
where the queued moves end, `last_flush_time`, up to which everything has
been sent, and `min_restart_time`, up to which steps may have been
generated.  They are advanced by commands, by two timers and by drip moves,
in four queuing states.  Numbers are exact.

A command that pauses in the reactor is kept in `paused`, with what is left
of it to do, and others run before it is resumed.  What the toolhead does to
others, and each value of its two public clocks, is kept in a log.  The timers
may run at any time, so when they are due is left out. -/

namespace Toolhead

open Lookahead (SquareRoot MoveData Junction Planned)

variable {K : Type}

/-! ## State -/

/-- `special_queuing_state`; the main state is the empty text of the source. -/
inductive QueuingState where
  | main
  | needPrime
  | priming
  | drip
  deriving DecidableEq

/-- What is done, and the values that `print_time` and `last_flush_time` take.
    An append is recorded with `kin_flush_delay`. -/
inductive Event (K : Type) [Field K] [LinearOrder K] where
  | printTime (time : K)
  | lastFlushTime (time : K)
  | flushMotionQueues (mustFlushTime maxStepGenTime trapqFreeTime : K)
  | trapqAppend (printTime kinFlushDelay : K) (move : MoveData K) (junction : Junction K)
  | timingCallbacks (time : K)
  | wipeTrapq

/-- A move as it is added to the look-ahead queue: its data, and the limits that
    the extra axes set for its junction. -/
structure Submitted (K : Type) [Field K] [LinearOrder K] where
  data : MoveData K
  eaV2 : List { v : K // 0 ≤ v }

/-- What follows `_check_pause`: nothing, or the transmission in `drip_move` of a move with a
    length. -/
inductive After (K : Type) [Field K] [LinearOrder K] where
  | nothing
  | dripMove (submitMove : Option (Submitted K))

/-- Where a command pauses. -/
inductive Paused (K : Type) [Field K] [LinearOrder K] where
  | checkPause (after : After K)
  | dripUpdateTime (nextPrintTime flushDelay : K)

/-- `ToolHead`, with the paused commands, how often it has looked at the outside and the log. -/
structure State (K : Type) [Field K] [LinearOrder K] where
  printTime : K
  specialQueuingState : QueuingState
  needCheckPause : K
  checkStallTime : K
  printStall : Nat
  canPause : Bool
  lastFlushTime : K
  minRestartTime : K
  needFlushTime : K
  stepGenTime : K
  kinFlushDelay : K
  kinFlushTimes : List K
  lookahead : Lookahead.State K
  paused : List (Paused K)
  looks : Nat
  log : List (Event K)

/-- What the toolhead finds outside: at each look the estimated print time and whether the drip
    move is to end, and after each event the calls of `note_mcu_movequeue_activity`. -/
structure Env (K : Type) where
  estimatedPrintTime : Nat → K
  dripCompleted : Nat → Bool
  notes : Nat → List (K × Bool)

section Model

variable [Field K] [LinearOrder K]

/-- `BUFFER_TIME_LOW`. -/
def bufferTimeLow : K := 1
/-- `BUFFER_TIME_HIGH`. -/
def bufferTimeHigh : K := 2
/-- `BUFFER_TIME_START`. -/
def bufferTimeStart : K := 1 / 4
/-- `BGFLUSH_LOW_TIME`. -/
def bgflushLowTime : K := 1 / 5
/-- `BGFLUSH_BATCH_TIME`. -/
def bgflushBatchTime : K := 1 / 5
/-- `BGFLUSH_EXTRA_TIME`. -/
def bgflushExtraTime : K := 1 / 4
/-- `MIN_KIN_TIME`. -/
def minKinTime : K := 1 / 10
/-- `MOVE_BATCH_TIME`. -/
def moveBatchTime : K := 1 / 2
/-- `STEPCOMPRESS_FLUSH_TIME`. -/
def stepcompressFlushTime : K := 1 / 20
/-- `SDS_CHECK_TIME`. -/
def sdsCheckTime : K := 1 / 1000
/-- `DRIP_SEGMENT_TIME`. -/
def dripSegmentTime : K := 1 / 20
/-- `DRIP_TIME`. -/
def dripTime : K := 1 / 10

/-- `reactor.NEVER`. -/
def never : K := 9999999999999999

/-- `ToolHead.__init__`; a toolhead that writes to a file cannot pause. -/
def State.init (canPause : Bool) : State K where
  printTime := 0
  specialQueuingState := .needPrime
  needCheckPause := -1
  checkStallTime := 0
  printStall := 0
  canPause := canPause
  lastFlushTime := 0
  minRestartTime := 0
  needFlushTime := 0
  stepGenTime := 0
  kinFlushDelay := sdsCheckTime
  kinFlushTimes := []
  lookahead := { Lookahead.State.init with junctionFlush := bufferTimeHigh }
  paused := []
  looks := 0
  log := [.printTime 0, .lastFlushTime 0]

/-- An entry in the log. -/
def State.record (e : Event K) (s : State K) : State K := { s with log := s.log ++ [e] }

/-- `print_time` is assigned. -/
def State.setPrintTime (time : K) (s : State K) : State K :=
  { s with printTime := time }.record (.printTime time)

/-- `last_flush_time` is assigned. -/
def State.setLastFlushTime (time : K) (s : State K) : State K :=
  { s with lastFlushTime := time }.record (.lastFlushTime time)

/-- `note_mcu_movequeue_activity`. -/
def State.noteMcuMovequeueActivity (mqTime : K) (isStepGen : Bool) (s : State K) : State K :=
  { s with
    needFlushTime := max s.needFlushTime mqTime
    stepGenTime := if isStepGen then max s.stepGenTime mqTime else s.stepGenTime }

/-- The callbacks of the last event note activity. -/
def State.callbacks (env : Env K) (s : State K) : State K :=
  (env.notes s.log.length).foldl (fun s note => s.noteMcuMovequeueActivity note.1 note.2) s

/-! ## Advancing the clocks -/

/-- `_advance_flush_time`. -/
def State.advanceFlushTime (env : Env K) (flushTime : K) (s : State K) : State K :=
  let flushTime := max flushTime s.lastFlushTime
  let sgFlushWant := min (flushTime + stepcompressFlushTime) (s.printTime - s.kinFlushDelay)
  let sgFlushTime := max sgFlushWant flushTime
  let trapqFreeTime := sgFlushTime - s.kinFlushDelay
  let s := s.record (.flushMotionQueues flushTime sgFlushTime trapqFreeTime)
  let s := s.callbacks env
  let s := { s with minRestartTime := max s.minRestartTime sgFlushTime }
  s.setLastFlushTime flushTime

/-- One pass of the loop of `_advance_move_time`, with its `flush_time`. -/
def flushBatch (env : Env K) (wantFlushTime : K) (r : K × State K) : K × State K :=
  let flushTime := min (r.1 + moveBatchTime) wantFlushTime
  (flushTime, r.2.advanceFlushTime env flushTime)

/-- The passes after the first. -/
def nextBatch (env : Env K) (wantFlushTime : K) (r : K × State K) : Option (K × State K) :=
  if wantFlushTime ≤ r.1 then none else some (flushBatch env wantFlushTime r)

/-- `_advance_move_time`. -/
def State.advanceMoveTime [FloorSemiring K] (env : Env K) (nextPrintTime : K)
    (s : State K) : State K :=
  let ptDelay := s.kinFlushDelay + stepcompressFlushTime
  let flushTime := max s.lastFlushTime (s.printTime - ptDelay)
  let s := s.setPrintTime (max s.printTime nextPrintTime)
  let wantFlushTime := max flushTime (s.printTime - ptDelay)
  (Loop.rounds (nextBatch env wantFlushTime) ⌈(wantFlushTime - flushTime) / moveBatchTime⌉₊
    (flushBatch env wantFlushTime (flushTime, s))).2

/-- `_calc_print_time`. -/
def State.calcPrintTime (env : Env K) (s : State K) : State K :=
  let estPrintTime := env.estimatedPrintTime s.looks
  let s := { s with looks := s.looks + 1 }
  let kinTime := max (estPrintTime + minKinTime) s.minRestartTime + s.kinFlushDelay
  let minPrintTime := max (estPrintTime + bufferTimeStart) kinTime
  if s.printTime < minPrintTime then s.setPrintTime minPrintTime else s

/-! ## Moves -/

/-- One move in `_process_lookahead`, with `next_move_time`. -/
def queueMove (env : Env K) (r : State K × K) (p : Planned K) : State K × K :=
  match p.junction with
  | none => r -- the times of the move are missing
  | some j =>
    let s := if p.move.data.isKinematicMove then
        r.1.record (.trapqAppend r.2 r.1.kinFlushDelay p.move.data j)
      else r.1
    let nextMoveTime := r.2 + j.accelT + j.cruiseT + j.decelT
    ((s.record (.timingCallbacks nextMoveTime)).callbacks env, nextMoveTime)

/-- `_process_lookahead` leaves a special state for the main state. -/
def State.resync (env : Env K) (s : State K) : State K :=
  if s.specialQueuingState = .main then s
  else
    { s with specialQueuingState := .main, needCheckPause := -1 }.calcPrintTime env

section Functions

variable [FloorSemiring K] (root : SquareRoot K) (env : Env K)

/-- `_process_lookahead`. -/
def State.processLookahead (lazy : Bool) (s : State K) : State K :=
  let moves := (Lookahead.flush root lazy s.lookahead.queue).1
  let s := { s with lookahead := s.lookahead.flush root lazy }
  if moves.isEmpty then s
  else
    let s := s.resync env
    let r := moves.foldl (queueMove env) (s, s.printTime)
    let s := r.1.noteMcuMovequeueActivity (r.2 + r.1.kinFlushDelay) true
    s.advanceMoveTime env r.2

/-- `_flush_lookahead`. -/
def State.flushLookahead (s : State K) : State K :=
  let s := s.processLookahead root env false
  { s with
    specialQueuingState := .needPrime
    needCheckPause := -1
    lookahead := s.lookahead.step root (.setFlushTime bufferTimeHigh)
    checkStallTime := 0 }

/-- `flush_step_generation`. -/
def State.flushStepGeneration (s : State K) : State K :=
  let s := s.flushLookahead root env
  let s := s.advanceFlushTime env s.stepGenTime
  { s with minRestartTime := max s.minRestartTime s.printTime }

/-- `get_last_move_time`, which returns `print_time`. -/
def State.getLastMoveTime (s : State K) : State K :=
  if s.specialQueuingState = .main then s.processLookahead root env false
  else (s.flushLookahead root env).calcPrintTime env

/-! ## Drip moves -/

/-- One move in `_drip_load_trapq`. -/
def dripQueueMove (r : State K × K) (p : Planned K) : State K × K :=
  match p.junction with
  | none => r
  | some j =>
    (r.1.record (.trapqAppend r.2 r.1.kinFlushDelay p.move.data j),
      r.2 + j.accelT + j.cruiseT + j.decelT)

/-- The move is added to the look-ahead queue. -/
def State.submit (m : Submitted K) (s : State K) : State K :=
  { s with lookahead := s.lookahead.step root (.addMove m.data m.eaV2) }

/-- `_drip_load_trapq`. -/
def State.dripLoadTrapq (submitMove : Option (Submitted K)) (s : State K) : State K × K :=
  let s := submitMove.elim s (State.submit root · s)
  let moves := (Lookahead.flush root false s.lookahead.queue).1
  let s := { s with lookahead := s.lookahead.flush root false }
  let s := s.calcPrintTime env
  let r := moves.foldl dripQueueMove (s, s.printTime)
  ({ r.1 with lookahead := Lookahead.State.init }, r.2)

/-- One segment of `drip_update_time`; the loop ends or has to wait where there is none. -/
def State.dripSegment (nextPrintTime flushDelay : K) (s : State K) : Option (State K) :=
  if nextPrintTime ≤ s.printTime ∨ env.dripCompleted s.looks = true then none
  else
    let waitTime := s.printTime - env.estimatedPrintTime s.looks - flushDelay
    if 0 < waitTime ∧ s.canPause = true then none
    else
      let s := { s with looks := s.looks + 1 }
      let npt := min (s.printTime + dripSegmentTime) nextPrintTime
      let s := s.noteMcuMovequeueActivity (npt + s.kinFlushDelay) true
      some (s.advanceMoveTime env npt)

/-- The loop of `drip_update_time` up to its next pause, or to the end of `drip_move`. -/
def State.dripSegments (nextPrintTime flushDelay : K) (s : State K) : State K :=
  let s := Loop.rounds (State.dripSegment env nextPrintTime flushDelay)
    ⌈(nextPrintTime - s.printTime) / dripSegmentTime⌉₊ s
  if nextPrintTime ≤ s.printTime ∨ env.dripCompleted s.looks = true then
    (s.flushStepGeneration root env).record .wipeTrapq
  else
    { s with
      looks := s.looks + 1
      paused := s.paused ++ [.dripUpdateTime nextPrintTime flushDelay] }

/-- `drip_update_time`. -/
def State.dripUpdateTime (nextPrintTime : K) (s : State K) : State K :=
  let s := { s with
    specialQueuingState := .drip
    needCheckPause := never
    lookahead := s.lookahead.step root (.setFlushTime bufferTimeHigh)
    checkStallTime := 0 }
  let flushDelay := dripTime + stepcompressFlushTime + s.kinFlushDelay
  s.dripSegments root env nextPrintTime flushDelay

/-- `drip_move` after its dwell. -/
def State.dripTransmit (submitMove : Option (Submitted K)) (s : State K) : State K :=
  let s := s.processLookahead root env false
  let r := s.dripLoadTrapq root env submitMove
  r.1.dripUpdateTime root env r.2

/-! ## Pauses -/

/-- What is left of a command. -/
def State.proceed (s : State K) : After K → State K
  | .nothing => s
  | .dripMove submitMove => s.dripTransmit root env submitMove

/-- The loop of `_check_pause` up to its next pause, or to its end. -/
def State.checkBuffer (estPrintTime : K) (after : After K) (s : State K) : State K :=
  let bufferTime := s.printTime - estPrintTime
  if bufferTime - bufferTimeHigh ≤ 0 then
    let s := if s.specialQueuingState = .main then
        { s with needCheckPause := estPrintTime + bufferTimeHigh + 1 / 10 }
      else s
    s.proceed root env after
  else if s.canPause = false then
    { s with needCheckPause := never }.proceed root env after
  else { s with paused := s.paused ++ [.checkPause after] }

/-- `_check_pause`. -/
def State.checkPause (after : After K) (s : State K) : State K :=
  let estPrintTime := env.estimatedPrintTime s.looks
  let s := { s with looks := s.looks + 1 }
  let s := if s.specialQueuingState = .main then s
    else
      { s with
        printStall :=
          if s.checkStallTime ≠ 0 ∧ estPrintTime < s.checkStallTime then
            s.printStall + 1
          else s.printStall
        checkStallTime := 0
        specialQueuingState := .priming
        needCheckPause := -1 }
  s.checkBuffer root env estPrintTime after

/-- A paused command goes on. -/
def State.goOn (s : State K) : Paused K → State K
  | .checkPause after =>
    let estPrintTime := env.estimatedPrintTime s.looks
    { s with looks := s.looks + 1 }.checkBuffer root env estPrintTime after
  | .dripUpdateTime nextPrintTime flushDelay => s.dripSegments root env nextPrintTime flushDelay

/-- The reactor resumes the paused command at place `i`. -/
def State.resume (i : Nat) (s : State K) : State K :=
  match s.paused[i]? with
  | none => s
  | some p => { s with paused := s.paused.eraseIdx i }.goOn root env p

/-! ## Commands and timers -/

/-- `move`, once it has been checked. -/
def State.move (m : Submitted K) (s : State K) : State K :=
  let wantFlush := (s.lookahead.addMove root m.data (m.eaV2.map Subtype.val)).2
  let s := s.submit root m
  let s := if wantFlush = some true then s.processLookahead root env true else s
  if s.needCheckPause < s.printTime then s.checkPause root env .nothing else s

/-- `dwell`. -/
def State.dwell (delay : K) (after : After K) (s : State K) : State K :=
  let s := s.getLastMoveTime root env
  let s := s.advanceMoveTime env (s.printTime + max 0 delay)
  s.checkPause root env after

/-- `drip_move`, once it has been checked. -/
def State.dripMove (submitMove : Option (Submitted K)) (s : State K) : State K :=
  s.dwell root env s.kinFlushDelay (.dripMove submitMove)

/-- `_priming_handler`. -/
def State.primingHandler (s : State K) : State K :=
  if s.specialQueuingState = .priming then
    let s := s.flushLookahead root env
    { s with checkStallTime := s.printTime }
  else s

/-- One pass of the loop of `_flush_handler`. -/
def State.backgroundFlush (estPrintTime : K) (s : State K) : Option (State K) :=
  let endFlush := s.needFlushTime + bgflushExtraTime
  if endFlush ≤ s.lastFlushTime then none
  else if bgflushLowTime < s.lastFlushTime - estPrintTime then none
  else
    let ftime := estPrintTime + bgflushLowTime + bgflushBatchTime
    some (s.advanceFlushTime env (min endFlush ftime))

/-- `_flush_handler`.  Callbacks may keep it going by noting activity, so the
    number of its passes is given. -/
def State.flushHandler (passes : Nat) (s : State K) : State K :=
  let estPrintTime := env.estimatedPrintTime s.looks
  let s := { s with looks := s.looks + 1 }
  let background := Loop.rounds (State.backgroundFlush env estPrintTime) passes
  if s.specialQueuingState = .main then
    let printTime := s.printTime
    if bufferTimeLow < printTime - estPrintTime then s
    else
      let s := s.flushLookahead root env
      background (if printTime ≠ s.printTime then
        { s with checkStallTime := s.printTime } else s)
  else background s

/-- `note_step_generation_scan_time`; `oldDelay` is zero or has been noted. -/
def State.noteStepGenerationScanTime (delay oldDelay : K) (s : State K) : State K :=
  let s := s.flushStepGeneration root env
  let times := if oldDelay ≠ 0 then s.kinFlushTimes.erase oldDelay
    else s.kinFlushTimes
  let times := if delay ≠ 0 then times ++ [delay] else times
  { s with kinFlushTimes := times, kinFlushDelay := times.foldl max sdsCheckTime }

/-- `_handle_shutdown`. -/
def State.handleShutdown (s : State K) : State K :=
  { s with canPause := false, lookahead := Lookahead.State.init }

/-- What is done with a toolhead.  `flushLookahead` is what `wait_moves` does before it waits, and
    `flushStepGeneration` what `set_position` does to the clocks. -/
inductive Op (K : Type) [Field K] [LinearOrder K] where
  | move (m : Submitted K)
  | limitNextJunctionSpeed (speed : K)
  | processLookahead (lazy : Bool)
  | dwell (delay : K)
  | dripMove (submitMove : Option (Submitted K))
  | flushLookahead
  | flushStepGeneration
  | getLastMoveTime
  | primingHandler
  | flushHandler (passes : Nat)
  | resume (i : Nat)
  | noteMcuMovequeueActivity (mqTime : K) (isStepGen : Bool)
  | noteStepGenerationScanTime (delay oldDelay : K)
  | handleShutdown

/-- One operation, up to its end or its first pause. -/
def State.step (s : State K) : Op K → State K
  | .move m => s.move root env m
  | .limitNextJunctionSpeed speed =>
    { s with
      lookahead := s.lookahead.step root (.limitNextJunctionSpeed speed) }
  | .processLookahead lazy => s.processLookahead root env lazy
  | .dwell delay => s.dwell root env delay .nothing
  | .dripMove submitMove => s.dripMove root env submitMove
  | .flushLookahead => s.flushLookahead root env
  | .flushStepGeneration => s.flushStepGeneration root env
  | .getLastMoveTime => s.getLastMoveTime root env
  | .primingHandler => s.primingHandler root env
  | .flushHandler passes => s.flushHandler root env passes
  | .resume i => s.resume root env i
  | .noteMcuMovequeueActivity mqTime isStepGen => s.noteMcuMovequeueActivity mqTime isStepGen
  | .noteStepGenerationScanTime delay oldDelay =>
    s.noteStepGenerationScanTime root env delay oldDelay
  | .handleShutdown => s.handleShutdown

/-- A run of operations on a new toolhead. -/
def run (canPause : Bool) (ops : List (Op K)) : State K :=
  ops.foldl (State.step root env) (State.init canPause)

end Functions

end Model

end Toolhead
