import Pick.RampProofs

/-! # Step compression (`klippy/chelper/stepcompress.c`)

The host queues the clocks of the steps of a stepper and compresses them
into `queue_step` commands: `compress_bisect_add` searches for a ramp that
stays close to as many steps as possible, `check_line` verifies what it
found, and `add_move` sends it.

The words of the source are 32 bits wide and wrap; its 64-bit clocks are
natural numbers here, and the flush limit `UINT64_MAX` is `⊤`. -/

namespace Stepcompress

/-- `struct step_move`. -/
structure StepMove where
  interval : UInt32
  count : UInt16
  add : Int16
  deriving DecidableEq

/-- A message to the stepper, with the parameters as they are encoded. -/
inductive Msg where
  | queueStep (interval count add : UInt32)
  | setNextStepDir (dir : UInt32)
  deriving DecidableEq

/-- `struct queue_message`. -/
structure QueueMessage where
  msg : Msg
  minClock : Nat
  reqClock : Nat
  deriving DecidableEq

/-- `struct history_steps`. -/
structure HistorySteps where
  firstClock : Nat
  lastClock : Nat
  startPosition : Int
  stepCount : Int
  interval : UInt32
  add : Int16
  deriving DecidableEq

/-- `struct stepcompress`.  `queue` lies between `queue_pos` and `queue_next`, `queuePos` and
    `queueEnd` are places in the buffer, a direction not known yet is `none`, and `sdsFilter` is
    `SDS_FILTER_TIME` in ticks. -/
structure State where
  queue : List UInt32
  queuePos : Nat
  queueEnd : Nat
  maxError : UInt32
  lastStepClock : Nat
  msgQueue : List QueueMessage
  sdir : Option Bool
  invertSdir : Bool
  sdsFilter : Int
  nextStepClock : Nat
  nextStepDir : Bool
  lastPosition : Int
  historyList : List HistorySteps
  deriving DecidableEq

/-- `stepcompress_alloc` and `stepcompress_fill`. -/
def alloc (maxError : UInt32) (invertSdir : Bool) (sdsFilter : Int) : State where
  queue := []
  queuePos := 0
  queueEnd := 0
  maxError := maxError
  lastStepClock := 0
  msgQueue := []
  sdir := none
  invertSdir := invertSdir
  sdsFilter := sdsFilter
  nextStepClock := 0
  nextStepDir := false
  lastPosition := 0
  historyList := []

/-- Why a call does not return 0: what `check_line` reports, or that the
    search for a move has not ended within its fuel. -/
inductive Failure where
  | invalidSequence (move : StepMove)
  | point (move : StepMove) (i : Nat) (p : UInt32) (minp maxp : Int32)
  | intervalOverflow (move : StepMove) (i : Nat) (interval : UInt32)
  | unfinished
  deriving DecidableEq

/-! ## Searching -/

/-- `idiv_up`. -/
def idivUp (n d : Int32) : Int32 := if 0 ≤ n then (n + d - 1) / d else n / d

/-- `idiv_down`. -/
def idivDown (n d : Int32) : Int32 := if 0 ≤ n then n / d else (n - d + 1) / d

/-- `struct points`. -/
structure Points where
  minp : Int32
  maxp : Int32
  deriving DecidableEq

/-- `minmax_point`, for the step at a place of the queue. -/
def minmaxPoint (sc : State) (pos : Nat) : Points :=
  let lsc := UInt32.ofNat sc.lastStepClock
  let point := sc.queue.getD pos 0 - lsc
  let prevpoint := if 0 < pos then sc.queue.getD (pos - 1) 0 - lsc else 0
  let maxError := (point - prevpoint) / 2
  let maxError := if maxError > sc.maxError then sc.maxError else maxError
  ⟨(point - maxError).toInt32, point.toInt32⟩

/-- `QUADRATIC_DEV`. -/
def quadraticDev : UInt32 := 11

/-- How the search with a given `add` ends: at the last step, or at a step `nextcount` that it
    cannot reach. -/
inductive Sequence where
  | complete (interval : Int32) (count : Nat)
  | stopped (nextcount : Nat) (nextpoint : Points)
      (nextmininterval nextmaxinterval interval : Int32)

/-- The inner loop of `compress_bisect_add`, once it has `count` steps; `left`
    is how many more there are. -/
def longest (sc : State) (add : Int32) :
    (left count : Nat) → (nextmininterval nextmaxinterval interval : Int32) →
      Sequence
  | 0, count, _, _, interval => .complete interval count
  | left + 1, count, nextmininterval, nextmaxinterval, interval =>
    let nextcount := Int32.ofNat (count + 1)
    let nextpoint := minmaxPoint sc count
    let nextaddfactor := nextcount * (nextcount - 1) / 2
    let c := add * nextaddfactor
    let nextmininterval :=
      if nextmininterval * nextcount < nextpoint.minp - c then
        idivUp (nextpoint.minp - c) nextcount
      else nextmininterval
    let nextmaxinterval :=
      if nextmaxinterval * nextcount > nextpoint.maxp - c then
        idivDown (nextpoint.maxp - c) nextcount
      else nextmaxinterval
    if nextmininterval > nextmaxinterval then
      .stopped (count + 1) nextpoint nextmininterval nextmaxinterval interval
    else
      longest sc add left (count + 1) nextmininterval nextmaxinterval nextmaxinterval

/-- The variables of `compress_bisect_add`. -/
structure Bisect where
  outerMininterval : Int32
  outerMaxinterval : Int32
  add : Int32
  minadd : Int32
  maxadd : Int32
  bestinterval : Int32
  bestcount : Nat
  bestadd : Int32
  bestreach : Int32
  zerointerval : Int32
  zerocount : Nat

/-- The move returned when the search ends. -/
def Bisect.result (b : Bisect) : StepMove :=
  if b.zerocount + b.zerocount / 16 ≥ b.bestcount then
    -- prefer add=0 if it's similar to the best found sequence
    ⟨b.zerointerval.toUInt32, UInt16.ofNat b.zerocount, 0⟩
  else ⟨b.bestinterval.toUInt32, UInt16.ofNat b.bestcount, b.bestadd.toInt16⟩

/-- `reach` of a sequence. -/
def reach (add interval : Int32) (count : Nat) : Int32 :=
  let count := Int32.ofNat count
  add * (count * (count - 1) / 2) + interval * count

/-- Whether a sequence is better than the best one so far. -/
def Bisect.improves (b : Bisect) (interval : Int32) (count : Nat) : Bool :=
  let reach := reach b.add interval count
  reach > b.bestreach || (reach == b.bestreach && interval > b.bestinterval)

/-- The best sequence so far, with one more considered. -/
def Bisect.update (b : Bisect) (interval : Int32) (count : Nat) : Bisect :=
  if b.improves interval count then
    { b with
      bestinterval := interval
      bestcount := count
      bestadd := b.add
      bestreach := reach b.add interval count
      zerointerval := if b.add = 0 then interval else b.zerointerval
      zerocount := if b.add = 0 then count else b.zerocount }
  else b

/-- The range of `add` and the range of the interval, from a sequence that stopped. -/
def Bisect.narrow (sc : State) (b : Bisect) (nextcount : Nat)
    (nextpoint : Points) (nextmininterval nextmaxinterval interval : Int32) : Bisect :=
  let count := UInt32.ofNat (nextcount - 1)
  let n := Int32.ofNat nextcount
  let nextaddfactor := n * (n - 1) / 2
  let b :=
    -- check if a greater or lesser add could extend the sequence
    if reach b.add interval nextcount < nextpoint.minp then
      { b with minadd := b.add + 1, outerMaxinterval := nextmaxinterval }
    else
      { b with maxadd := b.add - 1, outerMininterval := nextmininterval }
  let b :=
    if count > 1 then
      let errdelta := (sc.maxError * quadraticDev / (count * count)).toInt32
      { b with
        minadd := if b.minadd < b.add - errdelta then b.add - errdelta
          else b.minadd
        maxadd := if b.maxadd > b.add + errdelta then b.add + errdelta
          else b.maxadd }
    else b
  -- see if next point would further limit the add range
  let c := b.outerMaxinterval * n
  let minadd :=
    if b.minadd * nextaddfactor < nextpoint.minp - c then
      idivUp (nextpoint.minp - c) nextaddfactor
    else b.minadd
  let c := b.outerMininterval * n
  let maxadd :=
    if b.maxadd * nextaddfactor > nextpoint.maxp - c then
      idivDown (nextpoint.maxp - c) nextaddfactor
    else b.maxadd
  { b with minadd := minadd, maxadd := maxadd }

/-- The outer loop of `compress_bisect_add`; `qlast` is how many steps of the
    queue are considered. -/
def bisect (sc : State) (qlast : Nat) : Nat → Bisect → Option StepMove
  | 0, _ => none
  | fuel + 1, b =>
    match longest sc b.add (qlast - 1) 1 b.outerMininterval
        b.outerMaxinterval b.outerMaxinterval with
    | .complete interval count => some ⟨interval.toUInt32, UInt16.ofNat count, b.add.toInt16⟩
    | .stopped nextcount nextpoint nextmininterval nextmaxinterval interval =>
      let count := nextcount - 1
      let improves := b.improves interval count
      let b := b.update interval count
      -- no 'add' will improve the sequence
      if improves && decide (count > 0x200) then some b.result
      else
        let b := b.narrow sc nextcount nextpoint nextmininterval nextmaxinterval interval
        if b.minadd > b.maxadd then some b.result
        else
          bisect sc qlast fuel { b with add := b.maxadd - (b.maxadd - b.minadd) / 4 }

/-- `compress_bisect_add`. -/
def compressBisectAdd (fuel : Nat) (sc : State) : Option StepMove :=
  let qlast := min sc.queue.length 65535
  let point := minmaxPoint sc 0
  bisect sc qlast fuel
    { outerMininterval := point.minp
      outerMaxinterval := point.maxp
      add := 0
      minadd := -0x8000
      maxadd := 0x7fff
      bestinterval := 0
      bestcount := 1
      bestadd := 1
      bestreach := Int32.minValue
      zerointerval := 0
      zerocount := 0 }

/-! ## Checking -/

/-- `interval + add`, as the source adds a signed word to an unsigned one. -/
def advance (interval : UInt32) (add : Int16) : UInt32 := interval + add.toInt32.toUInt32

/-- The loop of `check_line`, from the step at place `i`. -/
def checkPoints (sc : State) (move : StepMove) :
    (left i : Nat) → (interval p : UInt32) → Except Failure Unit
  | 0, _, _, _ => .ok ()
  | left + 1, i, interval, p =>
    let point := minmaxPoint sc i
    let p := p + interval
    if p < point.minp.toUInt32 ∨ p > point.maxp.toUInt32 then
      .error (.point move (i + 1) p point.minp point.maxp)
    else if interval ≥ 0x80000000 then
      .error (.intervalOverflow move (i + 1) interval)
    else checkPoints sc move left (i + 1) (advance interval move.add) p

/-- `check_line`. -/
def checkLine (sc : State) (move : StepMove) : Except Failure Unit :=
  if move.count = 0 ∨ (move.interval = 0 ∧ move.add = 0 ∧ move.count > 1)
      ∨ move.interval ≥ 0x80000000 then
    .error (.invalidSequence move)
  else checkPoints sc move move.count.toNat 0 move.interval 0

/-! ## Sending -/

/-- `CLOCK_DIFF_MAX`. -/
def clockDiffMax : Nat := 3 <<< 28

/-- The clock ticks between the first and the last step of a move. -/
def StepMove.ticks (move : StepMove) : UInt32 :=
  let count := Int32.ofNat move.count.toNat
  let addfactor := count * (count - 1) / 2
  (move.add.toInt32 * addfactor).toUInt32 + move.interval * (count - 1).toUInt32

/-- `add_move`. -/
def addMove (sc : State) (firstClock : Nat) (move : StepMove) : State :=
  let lastClock := firstClock + move.ticks.toNat
  let qm : QueueMessage :=
    { msg := .queueStep move.interval move.count.toUInt32 move.add.toInt32.toUInt32
      minClock := sc.lastStepClock
      reqClock :=
        if move.count = 1 ∧ firstClock ≥ sc.lastStepClock + clockDiffMax then
          firstClock
        else sc.lastStepClock }
  let stepCount : Int := if sc.sdir = some false then -move.count.toNat else move.count.toNat
  let hs : HistorySteps :=
    { firstClock := firstClock
      lastClock := lastClock
      startPosition := sc.lastPosition
      stepCount := stepCount
      interval := move.interval
      add := move.add }
  { sc with
    msgQueue := sc.msgQueue ++ [qm]
    lastStepClock := lastClock
    lastPosition := sc.lastPosition + stepCount
    historyList := hs :: sc.historyList }

/-- The loop of `queue_flush`; the length of the queue bounds the number of turns. -/
def flushLoop (fuel : Nat) (moveClock : WithTop Nat) :
    Nat → State → Except Failure State
  | 0, _ => .error .unfinished
  | turns + 1, sc =>
    if (sc.lastStepClock : WithTop Nat) < moveClock then
      match compressBisectAdd fuel sc with
      | none => .error .unfinished
      | some move =>
        match checkLine sc move with
        | .error e => .error e
        | .ok () =>
          let sc := addMove sc (sc.lastStepClock + move.interval.toNat) move
          if move.count.toNat ≥ sc.queue.length then
            .ok { sc with queue := [], queuePos := 0 }
          else
            flushLoop fuel moveClock turns
              { sc with
                queue := sc.queue.drop move.count.toNat
                queuePos := sc.queuePos + move.count.toNat }
    else .ok sc

/-- `queue_flush`. -/
def queueFlush (fuel : Nat) (moveClock : WithTop Nat) (sc : State) : Except Failure State :=
  if sc.queue = [] then .ok sc
  else flushLoop fuel moveClock sc.queue.length sc

/-- `stepcompress_flush_far`. -/
def flushFar (sc : State) (absStepClock : Nat) : State :=
  addMove sc absStepClock ⟨UInt32.ofNat absStepClock - UInt32.ofNat sc.lastStepClock, 1, 0⟩

/-- `set_next_step_dir`. -/
def setNextStepDir (fuel : Nat) (sdir : Bool) (sc : State) : Except Failure State :=
  if sc.sdir = some sdir then .ok sc
  else do
    let sc ← queueFlush fuel ⊤ sc
    .ok { sc with
      sdir := some sdir
      msgQueue := sc.msgQueue ++
        [{ msg := .setNextStepDir (sdir ^^ sc.invertSdir).toUInt32
           minClock := 0
           reqClock := sc.lastStepClock }] }

/-! ## Queueing -/

/-- `*sc->queue_next++ = clock`. -/
def State.push (sc : State) (clock : Nat) : State :=
  { sc with queue := sc.queue ++ [UInt32.ofNat clock] }

/-- `queue_append_far`. -/
def queueAppendFar (fuel : Nat) (sc : State) : Except Failure State := do
  let stepClock := sc.nextStepClock
  let sc := { sc with nextStepClock := 0 }
  let sc ← queueFlush fuel ((stepClock - clockDiffMax + 1 : Nat)) sc
  if stepClock ≥ sc.lastStepClock + clockDiffMax then
    .ok (flushFar sc stepClock)
  else .ok (sc.push stepClock)

/-- The loop that doubles the size of the buffer; `n` bounds its turns. -/
def growAlloc (inUse : Nat) : (n alloc : Nat) → Nat
  | 0, alloc => alloc
  | n + 1, alloc => if inUse ≥ alloc then growAlloc inUse n (alloc * 2) else alloc

/-- `QUEUE_START_SIZE`. -/
def queueStartSize : Nat := 1024

/-- Room for another step in the buffer. -/
def makeRoom (sc : State) : State :=
  if sc.queuePos + sc.queue.length ≥ sc.queueEnd then
    if 0 < sc.queuePos then { sc with queuePos := 0 }
    else
      let alloc := if sc.queueEnd = 0 then queueStartSize else sc.queueEnd
      { sc with
        queuePos := 0
        queueEnd := growAlloc sc.queue.length (sc.queue.length + 1) alloc }
  else sc

/-- No point in keeping more than 64K steps in memory. -/
def flushExcess (fuel : Nat) (sc : State) : Except Failure State :=
  if sc.queue.length > 65535 + 2000 then
    let flush := sc.queue.getD (sc.queue.length - 65535) 0 - UInt32.ofNat sc.lastStepClock
    queueFlush fuel ((sc.lastStepClock + flush.toNat : Nat)) sc
  else .ok sc

/-- `queue_append_extend`. -/
def queueAppendExtend (fuel : Nat) (sc : State) : Except Failure State := do
  let sc ← flushExcess fuel sc
  let sc := makeRoom sc
  .ok { sc.push sc.nextStepClock with nextStepClock := 0 }

/-- The direction of the next step comes first. -/
def changeDir (fuel : Nat) (sc : State) : Except Failure State :=
  if some sc.nextStepDir ≠ sc.sdir then setNextStepDir fuel sc.nextStepDir sc
  else .ok sc

/-- `queue_append`. -/
def queueAppend (fuel : Nat) (sc : State) : Except Failure State := do
  let sc ← changeDir fuel sc
  if sc.nextStepClock ≥ sc.lastStepClock + clockDiffMax then
    queueAppendFar fuel sc
  else if sc.queuePos + sc.queue.length ≥ sc.queueEnd then
    queueAppendExtend fuel sc
  else .ok { sc.push sc.nextStepClock with nextStepClock := 0 }

/-! ## Runs -/

/-- A step that has been requested. -/
structure Step where
  clock : Nat
  dir : Bool
  deriving DecidableEq

/-- A stepper of the host, with the steps that have entered its queue. -/
structure Host where
  sc : State
  entered : List Step
  deriving DecidableEq

/-- A stepper before its first step, as `stepcompress_alloc` leaves it (with
    the clock 0) or `stepcompress_reset`. -/
def Host.start (maxError : UInt32) (invertSdir : Bool) (sdsFilter : Int)
    (lastStepClock : Nat) : Host where
  sc := { alloc maxError invertSdir sdsFilter with
    lastStepClock := lastStepClock }
  entered := []

/-- `queue_append`, with the step noted. -/
def Host.enter (fuel : Nat) (h : Host) : Except Failure Host := do
  let sc ← queueAppend fuel h.sc
  .ok ⟨sc, h.entered ++ [⟨h.sc.nextStepClock, h.sc.nextStepDir⟩]⟩

/-- `stepcompress_append`, once the step clock is calculated. -/
def Host.append (fuel : Nat) (sdir : Bool) (stepClock : Nat) (h : Host) :
    Except Failure Host := do
  if h.sc.nextStepClock ≠ 0 then
    if sdir ≠ h.sc.nextStepDir ∧
        (stepClock : Int) - h.sc.nextStepClock < h.sc.sdsFilter then
      -- rollback last step to avoid rapid step+dir+step
      .ok { h with sc := { h.sc with nextStepClock := 0, nextStepDir := sdir } }
    else
      let h ← h.enter fuel
      .ok { h with
        sc := { h.sc with nextStepClock := stepClock, nextStepDir := sdir } }
  else
    .ok { h with
      sc := { h.sc with nextStepClock := stepClock, nextStepDir := sdir } }

/-- `stepcompress_commit`. -/
def Host.commit (fuel : Nat) (h : Host) : Except Failure Host :=
  if h.sc.nextStepClock ≠ 0 then h.enter fuel else .ok h

/-- The pending step is entered if it is not after a clock. -/
def Host.enterUpTo (fuel : Nat) (moveClock : WithTop Nat) (h : Host) : Except Failure Host :=
  if h.sc.nextStepClock ≠ 0 ∧ (h.sc.nextStepClock : WithTop Nat) ≤ moveClock
  then h.enter fuel
  else .ok h

/-- `stepcompress_flush`. -/
def Host.flush (fuel : Nat) (moveClock : WithTop Nat) (h : Host) :
    Except Failure Host := do
  let h ← h.enterUpTo fuel moveClock
  let sc ← queueFlush fuel moveClock h.sc
  .ok { h with sc := sc }

/-- A call of the host. -/
inductive Call where
  | append (sdir : Bool) (stepClock : Nat)
  | commit
  | flush (moveClock : WithTop Nat)

/-- One call. -/
def Host.call (fuel : Nat) (h : Host) : Call → Except Failure Host
  | .append sdir stepClock => h.append fuel sdir stepClock
  | .commit => h.commit fuel
  | .flush moveClock => h.flush fuel moveClock

/-- Calls that all return 0. -/
def Host.run (fuel : Nat) (h : Host) (calls : List Call) : Except Failure Host :=
  calls.foldlM (Host.call fuel) h

end Stepcompress
