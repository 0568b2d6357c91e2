import Pick.StepTrainProofs
import Pick.RunProofs
import Pick.TimerProofs

/-! # The firmware stepper

Model of `src/stepper.c`: the move queue of a stepper, `stepper_load_next`,
the three timer functions, and the commands that feed them.

A state stands for a train of steps: the one that is due, the rest of the
current move, and the moves in the queue. -/

namespace Stepper

open List Ramp Timer

/-! ## State -/

/-- `struct stepper_move`; `dir` is its flag `MF_DIR`. -/
structure Move where
  interval : UInt32
  add : Int16
  count : UInt16
  dir : Bool
  deriving DecidableEq, Repr

/-- What the build fixes: the `CONFIG_*` symbols, `EDGE_STEP_TICKS`, and the
    value of `timer_from_us(1000)`. -/
structure Board where
  inlineStepperHack : Bool
  wantStepperOptimizedBothEdge : Bool
  machAvr : Bool
  edgeStepTicks : UInt32
  maxLate : UInt32

/-- `HAVE_EDGE_OPTIMIZATION`. -/
def Board.haveEdgeOptimization (b : Board) : Bool :=
  b.inlineStepperHack && b.wantStepperOptimizedBothEdge

/-- `HAVE_AVR_OPTIMIZATION`. -/
def Board.haveAvrOptimization (b : Board) : Bool :=
  !b.haveEdgeOptimization && (b.inlineStepperHack && b.machAvr)

/-- `AVR_STEP_TICKS`. -/
def avrStepTicks : UInt32 := 40

/-- The function of a stepper's timer; without one the scheduler calls `stepper_event` itself. -/
inductive TimerFunc where
  | inlined
  | full
  deriving DecidableEq, Repr

/-- `struct stepper`, each `SF_*` flag a field of its own. -/
structure State where
  waketime : UInt32 := 0
  func : TimerFunc := .inlined
  interval : UInt32 := 0
  add : Int16 := 0
  count : UInt32 := 0
  nextStepTime : UInt32 := 0
  stepPulseTicks : UInt32 := 0
  stepPin : Bool := false
  dirPin : Bool := false
  position : UInt32 := 0
  mq : List Move := []
  lastDir : Bool := false
  nextDir : Bool := false
  invertStep : Bool := false
  needReset : Bool := false
  singleSched : Bool := false
  optimizedPath : Bool := false
  haveAdd : Bool := false
  deriving DecidableEq, Repr

/-- The calls of `shutdown`. -/
inductive Shutdown where
  | tooFarInPast
  | invalidCount
  | resetWhenActive
  deriving DecidableEq, Repr

/-- The texts. -/
def Shutdown.text : Shutdown → String
  | .tooFarInPast => "Stepper too far in past"
  | .invalidCount => "Invalid count parameter"
  | .resetWhenActive => "Can't reset time when stepper active"

/-- Code that may shut down, and then leaves the state as it is there. -/
abbrev Exec (α : Type) := Except (Shutdown × State) α

/-- What a timer function returns. -/
inductive Sched where
  | done
  | reschedule
  deriving DecidableEq, Repr

/-- What `timer_read_time` returns during one timer event: to the event
    function, and after a change of direction. -/
structure Reads where
  event : UInt32
  turned : UInt32

/-- `POSITION_BIAS`. -/
def positionBias : UInt32 := 0x40000000

/-! ## Loading a move -/

variable (b : Board)

/-- `gpio_out_toggle_noirq(s->dir_pin)` if the move changes the direction. -/
def State.turn (s : State) (needDirChange : Bool) : State :=
  { s with dirPin := s.dirPin ^^ needDirChange }

/-- A fully scheduled move takes two events a step, unless each edge of the pin is a step. -/
def State.eventsOf (s : State) (moveCount : UInt16) : UInt32 :=
  if s.singleSched then moveCount.toUInt32 else moveCount.toUInt32 * 2

/-- The part of `stepper_load_next` for `stepper_event_full`.  The loop that waits for
    `min_next_time` before a change of direction only lets time pass: `turned` is read behind it. -/
def loadFull (turned : UInt32) (m : Move) (s : State) : Exec State :=
  let wasActive := s.count ≠ 0
  let minNextTime := s.waketime
  let nextStepTime := s.nextStepTime + m.interval
  let loaded := { s with
    nextStepTime := nextStepTime
    waketime := nextStepTime
    count := s.eventsOf m.count }
  let tooClose := wasActive ∧ timerIsBefore nextStepTime minNextTime
  if tooClose ∧ (nextStepTime - minNextTime).toInt32 < (-b.maxLate).toInt32 then
    .error (.tooFarInPast, loaded)
  else
    let waketime := if tooClose then minNextTime else nextStepTime
    let afterTurn := turned + s.stepPulseTicks
    .ok ({ loaded with
      waketime :=
        if wasActive ∧ m.dir ∧ timerIsBefore waketime afterTurn then afterTurn
        else waketime }.turn m.dir)

/-- Setup a stepper for the next move in its queue. -/
def loadNext (turned : UInt32) (s : State) : Exec (Sched × State) :=
  match s.mq with
  | [] => .ok (.done, { s with count := 0 })
  | m :: mq =>
    let s := { s with
      mq := mq
      position := (if m.dir then -s.position else s.position) + m.count.toUInt32
      add := m.add
      interval := m.interval + m.add.toInt32.toUInt32 }
    if b.haveEdgeOptimization && s.optimizedPath then
      .ok (.reschedule, { s with
        waketime := s.waketime + m.interval
        count := m.count.toUInt32 }.turn m.dir)
    else if b.haveAvrOptimization && s.optimizedPath then
      .ok (.reschedule, { s with
        waketime := s.waketime + m.interval
        count := m.count.toUInt32
        haveAdd := m.add ≠ 0 }.turn m.dir)
    else
      (loadFull b turned m s).map fun s => (.reschedule, s)

/-! ## Timer events -/

/-- `gpio_out_toggle_noirq(s->step_pin)`. -/
def State.toggleStep (s : State) : State := { s with stepPin := !s.stepPin }

/-- Optimized step function to step on each step pin edge. -/
def eventEdge (reads : Reads) (s : State) : Exec (Sched × State) :=
  let s := s.toggleStep
  let count := s.count - 1
  if count ≠ 0 then
    .ok (.reschedule, { s with
      count := count
      waketime := s.waketime + s.interval
      interval := s.interval + s.add.toInt32.toUInt32 })
  else
    loadNext b reads.turned s

/-- AVR optimized step function; it counts in the low half of `count`. -/
def eventAvr (reads : Reads) (s : State) : Exec (Sched × State) :=
  let s := s.toggleStep
  let count := s.count.toUInt16 - 1
  if count ≠ 0 then
    .ok (.reschedule, { s with
      count := (s.count &&& 0xffff0000) ||| count.toUInt32
      waketime := s.waketime + s.interval
      interval :=
        if s.haveAdd then s.interval + s.add.toInt32.toUInt32
        else s.interval }.toggleStep)
  else
    (loadNext b reads.turned s).map fun r => (r.1, r.2.toggleStep)

/-- Regular "fully scheduled" step function. -/
def eventFull (reads : Reads) (s : State) : Exec (Sched × State) :=
  let s := s.toggleStep
  let minNextTime := reads.event + s.stepPulseTicks
  let count := s.count - 1
  if count &&& 1 ≠ 0 ∧ ¬ s.singleSched then
    -- the unstep event
    .ok (.reschedule, { s with count := count, waketime := minNextTime })
  else if count ≠ 0 then
    let nextStepTime := s.nextStepTime + s.interval
    .ok (.reschedule, { s with
      nextStepTime := nextStepTime
      interval := s.interval + s.add.toInt32.toUInt32
      count := count
      waketime :=
        if timerIsBefore nextStepTime minNextTime then minNextTime
        else nextStepTime })
  else
    loadNext b reads.turned { s with waketime := minNextTime }

/-- Which of them the scheduler ends up in. -/
inductive Path where
  | edge
  | avr
  | full
  deriving DecidableEq, Repr

/-- `stepper_event`. -/
def Board.stepperEvent : Path :=
  if b.haveEdgeOptimization then .edge
  else if b.haveAvrOptimization then .avr
  else .full

/-- The path of the timer function. -/
def State.path (s : State) : Path :=
  match s.func with
  | .inlined => b.stepperEvent
  | .full => .full

/-- The timer function. -/
def State.event (reads : Reads) (s : State) : Exec (Sched × State) :=
  match s.path b with
  | .edge => eventEdge b reads s
  | .avr => eventAvr b reads s
  | .full => eventFull b reads s

/-! ## Commands -/

/-- `command_config_stepper`. -/
def commandConfigStepper (invertStep : Int8) (stepPulseTicks : UInt32) : State :=
  let s : State := {
    invertStep := 0 < invertStep
    singleSched := invertStep < 0
    stepPin := 0 < invertStep
    position := -positionBias
    stepPulseTicks := stepPulseTicks }
  if b.haveEdgeOptimization then
    if invertStep < 0 ∧ stepPulseTicks ≤ b.edgeStepTicks then
      { s with optimizedPath := true }
    else { s with func := .full }
  else if b.haveAvrOptimization then
    if 0 ≤ invertStep ∧ stepPulseTicks ≤ avrStepTicks then
      { s with singleSched := true, optimizedPath := true }
    else { s with func := .full }
  else if ¬ b.inlineStepperHack then { s with func := .full }
  else s

/-- `command_queue_step`; the result says if the timer is added. -/
def commandQueueStep (interval count add : UInt32) (s : State) : Exec (Bool × State) :=
  let m : Move := ⟨interval, add.toUInt16.toInt16, count.toUInt16, s.lastDir ≠ s.nextDir⟩
  if m.count = 0 then .error (.invalidCount, s)
  else if s.count ≠ 0 then
    .ok (false, { s with lastDir := s.nextDir, mq := s.mq ++ [m] })
  else if s.needReset then .ok (false, s)
  else
    -- an idle stepper changes its direction without reading the timer
    (loadNext b 0 { s with lastDir := s.nextDir, mq := s.mq ++ [m] }).map fun r => (true, r.2)

/-- `command_set_next_step_dir`. -/
def commandSetNextStepDir (dir : UInt32) (s : State) : State := { s with nextDir := dir ≠ 0 }

/-- `command_reset_step_clock`. -/
def commandResetStepClock (waketime : UInt32) (s : State) : Exec State :=
  if s.count ≠ 0 then .error (.resetWhenActive, s)
  else .ok { s with
    nextStepTime := waketime, waketime := waketime, needReset := false }

/-! ## Runs -/

/-- The step of the next timer event, with the time it is scheduled for and the level of the
    direction pin.  The second event of a fully scheduled step only takes the pin back. -/
def State.stepDue (s : State) : List (UInt32 × Bool) :=
  match s.path b with
  | .full =>
    if s.singleSched ∨ s.count.toNat % 2 = 0 then [(s.nextStepTime, s.dirPin)]
    else []
  | _ => [(s.waketime, s.dirPin)]

/-- A stepper, whether its timer is in the scheduler's list, and the steps it has done. -/
structure Mcu where
  s : State
  armed : Bool
  steps : List (UInt32 × Bool)

/-- A message, or the timer. -/
inductive Event where
  | message (msg : Stepcompress.Msg)
  | timer (reads : Reads)

/-- One event. -/
def Mcu.event (mcu : Mcu) : Event → Exec Mcu
  | .message (.queueStep interval count add) =>
    (commandQueueStep b interval count add mcu.s).map fun r =>
      { mcu with s := r.2, armed := mcu.armed || r.1 }
  | .message (.setNextStepDir dir) => .ok { mcu with s := commandSetNextStepDir dir mcu.s }
  | .timer reads =>
    if mcu.armed then
      (mcu.s.event b reads).map fun r => ⟨r.2, r.1 = .reschedule, mcu.steps ++ mcu.s.stepDue b⟩
    else .ok mcu

/-- A run of events. -/
def Mcu.run (mcu : Mcu) (events : List Event) : Exec Mcu :=
  events.foldlM (fun mcu ev => mcu.event b ev) mcu

/-- The messages among the events. -/
def delivered : List Event → List Stepcompress.Msg
  | [] => []
  | .message msg :: events => msg :: delivered events
  | .timer _ :: events => delivered events

/-! ## What a state stands for -/

/-- The steps of the moves in a queue; `dir` is the direction before. -/
def queued : Bool → List Move → List (Segment UInt32 Bool)
  | _, [] => []
  | dir, m :: mq =>
    ⟨m.interval, m.count.toNat, m.add.toInt32.toUInt32, dir ^^ m.dir⟩ :: queued (dir ^^ m.dir) mq

/-- The direction after them. -/
def queuedDir : Bool → List Move → Bool
  | dir, [] => dir
  | dir, m :: mq => queuedDir (dir ^^ m.dir) mq

theorem queued_append (dir : Bool) (mq mq' : List Move) :
    queued dir (mq ++ mq') = queued dir mq ++ queued (queuedDir dir mq) mq' := by
  induction mq generalizing dir with
  | nil => rfl
  | cons m mq ih => rw [cons_append, queued, ih, queued, queuedDir, cons_append]

theorem queuedDir_append (dir : Bool) (mq mq' : List Move) :
    queuedDir dir (mq ++ mq') = queuedDir (queuedDir dir mq) mq' := by
  induction mq generalizing dir with
  | nil => rfl
  | cons m mq ih => rw [cons_append, queuedDir, ih, queuedDir]

/-- The time of the last step scheduled. -/
def State.clock (s : State) : UInt32 :=
  match s.path b with
  | .full => s.nextStepTime
  | _ => s.waketime

/-- How many steps of the current move are not scheduled yet. -/
def State.left (s : State) : Nat :=
  if s.singleSched then s.count.toNat - 1 else (s.count.toNat - 1) / 2

/-- The segments of a stepper that is stepping. -/
def State.segs (s : State) : List (Segment UInt32 Bool) :=
  ⟨s.interval, s.left, s.add.toInt32.toUInt32, s.dirPin⟩ :: queued s.dirPin s.mq

/-- The steps a state still stands for, if `tail` is to be queued. -/
def State.ahead (s : State) (tail : List (Segment UInt32 Bool)) : List (UInt32 × Bool) :=
  if s.count = 0 then train (s.clock b) tail
  else s.stepDue b ++ train (s.clock b) (s.segs ++ tail)

/-- What the configuration of a stepper fixes. -/
structure State.Configured (s : State) : Prop where
  optimized : s.optimizedPath = decide (s.path b ≠ .full)
  single : s.path b ≠ .full → s.singleSched = true

/-- What holds whenever a stepper is not in the middle of a command. -/
structure State.Valid (s : State) : Prop extends State.Configured b s where
  idle : s.count = 0 → s.mq = []
  counts : ∀ m ∈ s.mq, m.count ≠ 0
  dir : queuedDir s.dirPin s.mq = s.lastDir
  reset : s.needReset = false
  avrCount : s.path b = .avr → s.count.toNat < 2 ^ 16
  avrAdd : s.path b = .avr → s.haveAdd = decide (s.add ≠ 0)

/-- What neither a message nor a timer event changes. -/
structure Same (s s' : State) : Prop where
  func : s'.func = s.func
  singleSched : s'.singleSched = s.singleSched
  optimizedPath : s'.optimizedPath = s.optimizedPath
  needReset : s'.needReset = s.needReset

variable {b} {s s' : State} {m : Move} {mq : List Move}

theorem path_congr (hfunc : s'.func = s.func) : s'.path b = s.path b := by
  rw [State.path, State.path, hfunc]

theorem State.Configured.congr (hs : s.Configured b) (hfunc : s'.func = s.func)
    (hsingle : s'.singleSched = s.singleSched)
    (hoptimized : s'.optimizedPath = s.optimizedPath) : s'.Configured b := by
  refine ⟨?_, ?_⟩
  · rw [hoptimized, hs.optimized, path_congr hfunc]
  · intro hp
    rw [path_congr hfunc] at hp
    rw [hsingle, hs.single hp]

theorem Same.path (h : Same s s') : s'.path b = s.path b := path_congr h.func

/-- A move is put at the end of the queue. -/
def State.queue (s : State) (m : Move) : State := { s with lastDir := s.nextDir, mq := s.mq ++ [m] }

theorem State.Configured.queue (hs : s.Configured b) (m : Move) : (s.queue m).Configured b :=
  { hs with }

theorem State.queue_mq (hmq : s.mq = []) (m : Move) : (s.queue m).mq = [m] := by
  rw [State.queue, hmq]
  rfl

theorem Same.configured (h : Same s s') (hs : s.Configured b) : s'.Configured b :=
  hs.congr h.func h.singleSched h.optimizedPath

/-- The path of a stepper decides the branch of `stepper_load_next`. -/
theorem State.Configured.branches (h : s.Configured b) :
    (b.haveEdgeOptimization && s.optimizedPath) = decide (s.path b = .edge) ∧
      (b.haveAvrOptimization && s.optimizedPath) = decide (s.path b = .avr) := by
  rw [h.optimized, State.path, Board.stepperEvent, Board.haveAvrOptimization]
  cases s.func <;> cases b.haveEdgeOptimization <;> cases b.inlineStepperHack
    <;> cases b.machAvr <;> decide

/-- A new stepper is idle, and takes the path it is configured for. -/
theorem commandConfigStepper_spec (b : Board) (invertStep : Int8) (stepPulseTicks : UInt32) :
    let s := commandConfigStepper b invertStep stepPulseTicks
    s.Configured b ∧ s.count = 0 ∧ s.mq = [] ∧ s.dirPin = s.lastDir ∧
      s.haveAdd = decide (s.add ≠ 0) ∧ s.position = -positionBias ∧ s.dirPin = false ∧
      s.stepPin = s.invertStep ∧ s.stepPulseTicks = stepPulseTicks ∧ s.nextDir = false := by
  rw [commandConfigStepper]
  dsimp only
  split
  · rename_i hedge
    have hevent : b.stepperEvent = .edge := if_pos hedge
    split
    · rename_i hopt
      refine ⟨⟨?_, ?_⟩, rfl, rfl, rfl, rfl, rfl, rfl, rfl, rfl, rfl⟩
      · show true = decide (b.stepperEvent ≠ .full)
        rw [hevent]
        rfl
      · exact fun _ => decide_eq_true hopt.1
    · exact ⟨⟨rfl, fun h => absurd rfl h⟩, rfl, rfl, rfl, rfl, rfl, rfl, rfl, rfl, rfl⟩
  · rename_i hedge
    split
    · rename_i havr
      have hevent : b.stepperEvent = .avr := (if_neg hedge).trans (if_pos havr)
      split
      · refine ⟨⟨?_, fun _ => rfl⟩, rfl, rfl, rfl, rfl, rfl, rfl, rfl, rfl, rfl⟩
        show true = decide (b.stepperEvent ≠ .full)
        rw [hevent]
        rfl
      · exact ⟨⟨rfl, fun h => absurd rfl h⟩, rfl, rfl, rfl, rfl, rfl, rfl, rfl, rfl, rfl⟩
    · rename_i havr
      have hevent : b.stepperEvent = .full := (if_neg hedge).trans (if_neg havr)
      split
      · exact ⟨⟨rfl, fun h => absurd rfl h⟩, rfl, rfl, rfl, rfl, rfl, rfl, rfl, rfl, rfl⟩
      · refine ⟨⟨?_, fun h => absurd hevent h⟩, rfl, rfl, rfl, rfl, rfl, rfl, rfl, rfl, rfl⟩
        show false = decide (b.stepperEvent ≠ .full)
        rw [hevent]
        rfl

/-! ## Loading -/

variable (b) in
/-- The move `m` is loaded, and `mq` is left in the queue. -/
structure Loads (s : State) (m : Move) (mq : List Move) (s' : State) : Prop where
  same : Same s s'
  dirs : s'.lastDir = s.lastDir ∧ s'.nextDir = s.nextDir
  mq : s'.mq = mq
  clock : s'.clock b = s.clock b + m.interval
  interval : s'.interval = m.interval + m.add.toInt32.toUInt32
  add : s'.add = m.add
  dirPin : s'.dirPin = (s.dirPin ^^ m.dir)
  count : s'.count = s.eventsOf m.count
  avrAdd : s.path b = .avr → s'.haveAdd = decide (m.add ≠ 0)

theorem clock_full (hp : s.path b = .full) : s.clock b = s.nextStepTime := by
  rw [State.clock, hp]

theorem clock_of_ne_full (hp : s.path b ≠ .full) : s.clock b = s.waketime := by
  rw [State.clock]
  split
  · contradiction
  · rfl

variable {turned : UInt32}

theorem loadFull_ok (h : loadFull b turned m s = .ok s') :
    ∃ waketime, s' = { s with
      nextStepTime := s.nextStepTime + m.interval
      count := s.eventsOf m.count
      waketime := waketime
      dirPin := s.dirPin ^^ m.dir } := by
  rw [loadFull] at h
  dsimp only at h
  split at h
  · cases h
  · cases h
    exact ⟨_, rfl⟩

/-- Whatever the path, loading takes a move from the queue. -/
theorem loadNext_frame {r : Sched × State} (h : loadNext b turned s = .ok r) :
    r.2.mq = s.mq.tail ∧ r.2.func = s.func ∧ r.2.stepPulseTicks = s.stepPulseTicks := by
  rw [loadNext.eq_def] at h
  split at h
  · rename_i hmq
    cases h
    exact ⟨by rw [hmq]; rfl, rfl, rfl⟩
  · rename_i hmq
    rw [hmq]
    dsimp only at h
    split at h
    · cases h
      exact ⟨rfl, rfl, rfl⟩
    · split at h
      · cases h
        exact ⟨rfl, rfl, rfl⟩
      · obtain ⟨s₁, hs₁, rfl⟩ := Result.map_eq_ok h
        obtain ⟨waketime, rfl⟩ := loadFull_ok hs₁
        exact ⟨rfl, rfl, rfl⟩

theorem loadNext_cons {r : Sched × State}
    (hs : s.Configured b) (hmq : s.mq = m :: mq) (h : loadNext b turned s = .ok r) :
    r.1 = .reschedule ∧ Loads b s m mq r.2 := by
  rw [loadNext, hmq] at h
  dsimp only at h
  rw [hs.branches.1, hs.branches.2] at h
  by_cases hp : s.path b = .full
  · rw [hp] at h
    obtain ⟨s₁, hs₁, rfl⟩ := Result.map_eq_ok h
    obtain ⟨waketime, rfl⟩ := loadFull_ok hs₁
    refine ⟨rfl, ⟨rfl, rfl, rfl, rfl⟩, ⟨rfl, rfl⟩, rfl, ?_, rfl, rfl, rfl, rfl, ?_⟩
    · rw [clock_full hp]
      exact clock_full hp
    · intro ha
      rw [hp] at ha
      cases ha
  · -- both optimized paths count steps and keep the clock in the timer
    have hcount : s.eventsOf m.count = m.count.toUInt32 := by
      rw [State.eventsOf, hs.single hp, if_pos rfl]
    have hclock := clock_of_ne_full hp
    split at h
    · rename_i hedge
      cases h
      refine ⟨rfl, ⟨rfl, rfl, rfl, rfl⟩, ⟨rfl, rfl⟩, rfl, ?_, rfl, rfl, rfl, hcount.symm, ?_⟩
      · rw [hclock]
        exact clock_of_ne_full hp
      · intro ha
        rw [ha] at hedge
        cases hedge
    · split at h
      · cases h
        refine ⟨rfl, ⟨rfl, rfl, rfl, rfl⟩, ⟨rfl, rfl⟩, rfl, ?_, rfl, rfl, rfl,
          hcount.symm, fun _ => rfl⟩
        rw [hclock]
        exact clock_of_ne_full hp
      · rename_i hedge havr
        cases hpath : s.path b <;> simp_all

theorem toNat_eventsOf (s : State) (n : UInt16) :
    (s.eventsOf n).toNat = if s.singleSched then n.toNat else n.toNat * 2 := by
  rw [State.eventsOf]
  split
  · exact UInt16.toNat_toUInt32 n
  · rw [UInt32.toNat_mul, UInt16.toNat_toUInt32]
    have hlt := n.toNat_lt
    show n.toNat * 2 % 2 ^ 32 = _
    omega

/-- A step is due when its move has just been loaded or its time been set. -/
theorem stepDue_of_due (h : s.singleSched = true ∨ s.count.toNat % 2 = 0) :
    s.stepDue b = [(s.clock b, s.dirPin)] := by
  rw [State.stepDue, State.clock]
  cases hp : s.path b with
  | full => exact if_pos h
  | edge => rfl
  | avr => rfl

theorem stepDue_of_not_due (hs : s.Configured b)
    (h : ¬ (s.singleSched = true ∨ s.count.toNat % 2 = 0)) : s.stepDue b = [] := by
  have hp : s.path b = .full := by
    by_contra hp
    exact h (.inl (hs.single hp))
  rw [State.stepDue, hp]
  exact if_neg h

variable {tail : List (Segment UInt32 Bool)}

variable (h : Loads b s m mq s')
include h

theorem Loads.toNat_count :
    s'.count.toNat = if s'.singleSched then m.count.toNat else m.count.toNat * 2 := by
  rw [h.count, toNat_eventsOf, h.same.singleSched]

theorem Loads.count_ne_zero (hm : m.count ≠ 0) : s'.count ≠ 0 := by
  intro hzero
  have hcount := h.toNat_count
  have hpos : m.count.toNat ≠ 0 := fun h0 => hm (UInt16.toNat_inj.mp h0)
  rw [hzero, UInt32.toNat_zero] at hcount
  split at hcount <;> omega

/-- The first event of a move that is loaded makes a step. -/
theorem Loads.due : s'.singleSched = true ∨ s'.count.toNat % 2 = 0 := by
  have hcount := h.toNat_count
  by_cases hsingle : s'.singleSched = true
  · exact .inl hsingle
  · rw [if_neg hsingle] at hcount
    exact .inr (by omega)

/-- The first step of a move that is loaded is scheduled, the others are not. -/
theorem Loads.left (hm : m.count ≠ 0) : m.count.toNat = s'.left + 1 := by
  have hcount := h.toNat_count
  have hpos : m.count.toNat ≠ 0 := fun h0 => hm (UInt16.toNat_inj.mp h0)
  rw [State.left, hcount]
  split <;> omega

/-- Loading a move schedules its first step. -/
theorem Loads.ahead (hm : m.count ≠ 0) :
    s'.ahead b tail = train (s.clock b) (queued s.dirPin (m :: mq) ++ tail) := by
  rw [State.ahead, if_neg (h.count_ne_zero hm), stepDue_of_due h.due, State.segs,
    h.clock, h.dirPin, h.mq, h.interval, h.add, queued, h.left hm,
    cons_append, cons_append, cons_append, nil_append,
    train_succ]

theorem Loads.valid (hs : s.Configured b)
    (hreset : s.needReset = false) (hcounts : ∀ x ∈ m :: mq, x.count ≠ 0)
    (hdir : queuedDir s.dirPin (m :: mq) = s.lastDir) : s'.Valid b := by
  have hm := hcounts m mem_cons_self
  refine ⟨h.same.configured hs, ?_, ?_, ?_, ?_, ?_, ?_⟩
  · exact fun hzero => absurd hzero (h.count_ne_zero hm)
  · rw [h.mq]
    exact fun x hx => hcounts x (mem_cons_of_mem _ hx)
  · rw [h.dirPin, h.mq, h.dirs.1]
    exact hdir
  · rw [h.same.needReset, hreset]
  · intro hp
    rw [h.same.path] at hp
    have hsingle : s'.singleSched = true := by
      rw [h.same.singleSched]
      exact hs.single (by rw [hp]; exact nofun)
    rw [h.toNat_count, if_pos hsingle]
    exact m.count.toNat_lt
  · intro hp
    rw [h.same.path] at hp
    rw [h.avrAdd hp, h.add]

end Stepper
