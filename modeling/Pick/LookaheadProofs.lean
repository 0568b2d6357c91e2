import Pick.NumberProofs

/-! # The look-ahead queue (`klippy/toolhead.py`)

`LookAheadQueue` holds moves whose speeds are not decided yet.  `add_move`
bounds the speed at the junction with the move before; `flush` goes from
the last move to the first, assuming a full stop after the last, and
decides the speeds of all moves, or, when it is lazy, of those that more
moves cannot influence.  Speeds are tracked squared.  Numbers are exact. -/

namespace Lookahead

variable {K : Type}

/-- A square root, as far as the planner depends on it. -/
structure SquareRoot (K : Type) [Field K] [LinearOrder K] where
  sqrt : K → K
  nonneg : ∀ x, 0 ≤ sqrt x
  pos : ∀ x, 0 < x → 0 < sqrt x

/-! ## Moves -/

/-- What is fixed of a `Move` once it is queued.  Moves without length are dropped, and the
    configuration keeps the accelerations positive and `minimum_cruise_ratio` below one. -/
structure MoveData (K : Type) [Field K] [LinearOrder K] where
  moveD : K
  accel : K
  maxCruiseV2 : K
  smoothDeltaV2 : K
  junctionDeviation : K
  minMoveT : K
  isKinematicMove : Bool
  axesR : K × K × K
  moveD_pos : 0 < moveD
  accel_pos : 0 < accel
  maxCruiseV2_pos : 0 < maxCruiseV2
  smoothDeltaV2_pos : 0 < smoothDeltaV2
  smoothDeltaV2_le : smoothDeltaV2 ≤ 2 * moveD * accel
  junctionDeviation_nonneg : 0 ≤ junctionDeviation

/-- A `Move` with its junction limits. -/
structure Move (K : Type) [Field K] [LinearOrder K] where
  data : MoveData K
  maxStartV2 : K
  maxSmoothedV2 : K
  nextJunctionV2 : K

section Model

variable [Field K] [LinearOrder K]

/-- `delta_v2`: how much the squared speed can change in the move. -/
def MoveData.deltaV2 (d : MoveData K) : K := 2 * d.moveD * d.accel

/-- A move as `Move.__init__` leaves it. -/
def Move.init (data : MoveData K) : Move K where
  data := data
  maxStartV2 := 0
  maxSmoothedV2 := 0
  nextJunctionV2 := 9999999999 / 10

/-- `Move.limit_next_junction_speed`. -/
def Move.limitNextJunctionSpeed (m : Move K) (speed : K) : Move K :=
  { m with nextJunctionV2 := min m.nextJunctionV2 (speed ^ 2) }

/-- The part of `calc_junction` that bounds the centripetal force. -/
def centripetalV2 (root : SquareRoot K) (prev m : Move K) (maxStartV2 : K) : K :=
  let axesR := m.data.axesR
  let prevAxesR := prev.data.axesR
  let junctionCosTheta := -(axesR.1 * prevAxesR.1
    + axesR.2.1 * prevAxesR.2.1 + axesR.2.2 * prevAxesR.2.2)
  let sinThetaD2 := root.sqrt (max (1 / 2 * (1 - junctionCosTheta)) 0)
  let cosThetaD2 := root.sqrt (max (1 / 2 * (1 + junctionCosTheta)) 0)
  let oneMinusSinThetaD2 := 1 - sinThetaD2
  if oneMinusSinThetaD2 > 0 ∧ cosThetaD2 > 0 then
    let rJd := sinThetaD2 / oneMinusSinThetaD2
    let moveJdV2 := rJd * m.data.junctionDeviation * m.data.accel
    let pmoveJdV2 := rJd * prev.data.junctionDeviation * prev.data.accel
    let quarterTanThetaD2 := 1 / 4 * sinThetaD2 / cosThetaD2
    let moveCentripetalV2 := m.data.deltaV2 * quarterTanThetaD2
    let pmoveCentripetalV2 := prev.data.deltaV2 * quarterTanThetaD2
    min (min (min (min maxStartV2 moveJdV2) pmoveJdV2) moveCentripetalV2) pmoveCentripetalV2
  else maxStartV2

/-- `Move.calc_junction`; `eaV2` is what the extra axes return. -/
def Move.calcJunction (root : SquareRoot K) (eaV2 : List K) (prev m : Move K) : Move K :=
  if m.data.isKinematicMove = false ∨ prev.data.isKinematicMove = false then m
  else
    let maxStartV2 := eaV2.foldl min
      (min (min (min m.data.maxCruiseV2 prev.data.maxCruiseV2)
        prev.nextJunctionV2) (prev.maxStartV2 + prev.data.deltaV2))
    let maxStartV2 := centripetalV2 root prev m maxStartV2
    { m with
      maxStartV2 := maxStartV2
      maxSmoothedV2 := min maxStartV2 (prev.maxSmoothedV2 + prev.data.smoothDeltaV2) }

/-- What `set_junction` sets, and the distances it computes. -/
structure Junction (K : Type) where
  startV2 : K
  cruiseV2 : K
  endV2 : K
  accelD : K
  cruiseD : K
  decelD : K
  startV : K
  cruiseV : K
  endV : K
  accelT : K
  cruiseT : K
  decelT : K

/-- `Move.set_junction`. -/
def MoveData.setJunction (root : SquareRoot K) (d : MoveData K)
    (startV2 cruiseV2 endV2 : K) : Junction K :=
  let halfInvAccel := 1 / 2 / d.accel
  let accelD := (cruiseV2 - startV2) * halfInvAccel
  let decelD := (cruiseV2 - endV2) * halfInvAccel
  let cruiseD := d.moveD - accelD - decelD
  let startV := root.sqrt startV2
  let cruiseV := root.sqrt cruiseV2
  let endV := root.sqrt endV2
  { startV2 := startV2
    cruiseV2 := cruiseV2
    endV2 := endV2
    accelD := accelD
    cruiseD := cruiseD
    decelD := decelD
    startV := startV
    cruiseV := cruiseV
    endV := endV
    accelT := accelD / ((startV + cruiseV) * (1 / 2))
    cruiseT := cruiseD / cruiseV
    decelT := decelD / ((endV + cruiseV) * (1 / 2)) }

/-! ## Flushing -/

/-- A move whose speeds wait for `peak_cruise_v2`: its place in the queue, the
    move, its start and its end. -/
structure Delayed (K : Type) [Field K] [LinearOrder K] where
  index : Nat
  move : Move K
  msV2 : K
  meV2 : K

/-- The variables of `flush` in its loop, and the junctions set so far.  The
    move delayed last is the first of `delayed`. -/
structure Pass (K : Type) [Field K] [LinearOrder K] where
  flushCount : Nat
  updateFlushCount : Bool
  delayed : List (Delayed K)
  nextEndV2 : K
  nextSmoothedV2 : K
  peakCruiseV2 : K
  junctions : Nat → Option (Junction K)

/-- `set_junction` on the move at a place of the queue. -/
def setAt (junctions : Nat → Option (Junction K)) (i : Nat) (j : Junction K) :
    Nat → Option (Junction K) :=
  fun k => if k = i then some j else junctions k

/-- The loop that gives the delayed moves their speeds. -/
def propagate (root : SquareRoot K) :
    K → List (Delayed K) → (Nat → Option (Junction K)) →
      Nat → Option (Junction K)
  | _, [], junctions => junctions
  | mcV2, d :: delayed, junctions =>
    let mcV2 := min mcV2 d.msV2
    propagate root mcV2 delayed (setAt junctions d.index
      (d.move.data.setJunction root (min d.msV2 mcV2) mcV2 (min d.meV2 mcV2)))

/-- The junctions are set at this place. -/
def Pass.sets (s : Pass K) (i : Nat) : Prop := s.updateFlushCount = false ∧ i < s.flushCount

instance (s : Pass K) (i : Nat) : Decidable (s.sets i) := inferInstanceAs (Decidable (_ ∧ _))

/-- A move that can decelerate, or a full acceleration after a full
    deceleration: the peak speed is known. -/
def atPeak (root : SquareRoot K) (i : Nat) (m : Move K)
    (smoothedV2 reachableSmoothedV2 : K) (s : Pass K) : Pass K :=
  let s :=
    if s.updateFlushCount = true ∧ s.peakCruiseV2 ≠ 0 then
      { s with flushCount := i, updateFlushCount := false }
    else s
  let s := { s with
    peakCruiseV2 := min m.data.maxCruiseV2 ((smoothedV2 + reachableSmoothedV2) * (1 / 2)) }
  { s with
    junctions :=
      if s.sets i then propagate root s.peakCruiseV2 s.delayed s.junctions
      else s.junctions
    delayed := [] }

/-- The body of the loop of `flush`. -/
def visit (root : SquareRoot K) (i : Nat) (m : Move K) (s : Pass K) : Pass K :=
  let reachableStartV2 := s.nextEndV2 + m.data.deltaV2
  let startV2 := min m.maxStartV2 reachableStartV2
  let reachableSmoothedV2 := s.nextSmoothedV2 + m.data.smoothDeltaV2
  let smoothedV2 := min m.maxSmoothedV2 reachableSmoothedV2
  let s' :=
    if smoothedV2 < reachableSmoothedV2 then
      -- it's possible for this move to accelerate
      let s :=
        if smoothedV2 + m.data.smoothDeltaV2 > s.nextSmoothedV2 ∨ s.delayed.isEmpty = false then
          atPeak root i m smoothedV2 reachableSmoothedV2 s
        else s
      if s.sets i then
        let cruiseV2 := min (min ((startV2 + reachableStartV2) * (1 / 2))
          m.data.maxCruiseV2) s.peakCruiseV2
        { s with
          junctions := setAt s.junctions i (m.data.setJunction root
            (min startV2 cruiseV2) cruiseV2 (min s.nextEndV2 cruiseV2)) }
      else s
    else
      -- delay this move until peak_cruise_v2 is known
      { s with delayed := ⟨i, m, startV2, s.nextEndV2⟩ :: s.delayed }
  { s' with nextEndV2 := startV2, nextSmoothedV2 := smoothedV2 }

/-- The loop of `flush`, from the last move to the one at place `i`; `n` is
    the length of the queue. -/
def flushLoop (root : SquareRoot K) (lazy : Bool) (n : Nat) :
    Nat → List (Move K) → Pass K
  | _, [] =>
    { flushCount := n
      updateFlushCount := lazy
      delayed := []
      nextEndV2 := 0
      nextSmoothedV2 := 0
      peakCruiseV2 := 0
      junctions := fun _ => none }
  | i, m :: moves => visit root i m (flushLoop root lazy n (i + 1) moves)

/-- A move that has been returned, with the junction set for it if any. -/
structure Planned (K : Type) [Field K] [LinearOrder K] where
  move : Move K
  junction : Option (Junction K)

/-- `LookAheadQueue.flush`: the moves returned and the moves left. -/
def flush (root : SquareRoot K) (lazy : Bool) (queue : List (Move K)) :
    List (Planned K) × List (Move K) :=
  let s := flushLoop root lazy queue.length 0 queue
  if s.updateFlushCount = true ∨ s.flushCount = 0 then ([], queue)
  else
    ((queue.take s.flushCount).mapIdx fun i m => ⟨m, s.junctions i⟩, queue.drop s.flushCount)

/-! ## The queue -/

/-- `LOOKAHEAD_FLUSH_TIME`. -/
def lookaheadFlushTime : K := 1 / 4

/-- `LookAheadQueue`, with the moves added, those returned and how many they were at each full
    flush. -/
structure State (K : Type) [Field K] [LinearOrder K] where
  queue : List (Move K)
  junctionFlush : K
  added : List (MoveData K)
  returned : List (Planned K)
  stops : List Nat

/-- A new queue; nothing moves yet. -/
def State.init : State K where
  queue := []
  junctionFlush := lookaheadFlushTime
  added := []
  returned := []
  stops := [0]

/-- `LookAheadQueue.add_move`, with whether it asks for a flush. -/
def State.addMove (root : SquareRoot K) (data : MoveData K) (eaV2 : List K)
    (s : State K) : State K × Option Bool :=
  let added := s.added ++ [data]
  match s.queue.getLast? with
  | none => ({ s with queue := s.queue ++ [Move.init data], added := added }, none)
  | some prev =>
    let junctionFlush := s.junctionFlush - data.minMoveT
    ({ s with
      queue := s.queue ++ [Move.calcJunction root eaV2 prev (Move.init data)]
      junctionFlush := junctionFlush
      added := added }, some (decide (junctionFlush ≤ 0)))

/-- `LookAheadQueue.flush` in the history. -/
def State.flush (root : SquareRoot K) (lazy : Bool) (s : State K) : State K :=
  let r := Lookahead.flush root lazy s.queue
  let returned := s.returned ++ r.1
  { s with
    queue := r.2
    junctionFlush := lookaheadFlushTime
    returned := returned
    stops := if lazy then s.stops else s.stops ++ [returned.length] }

/-- `ToolHead.limit_next_junction_speed`, for the last move of the queue. -/
def State.limitNextJunctionSpeed (speed : K) (s : State K) : State K :=
  match s.queue.getLast? with
  | none => s
  | some last =>
    { s with
      queue := s.queue.dropLast ++ [last.limitNextJunctionSpeed speed] }

/-- What is done with a queue.  The limits of the extra axes are not negative. -/
inductive Op (K : Type) [Field K] [LinearOrder K] where
  | addMove (data : MoveData K) (eaV2 : List { v : K // 0 ≤ v })
  | flush (lazy : Bool)
  | limitNextJunctionSpeed (speed : K)
  | setFlushTime (flushTime : K)

/-- One operation. -/
def State.step (root : SquareRoot K) (s : State K) : Op K → State K
  | .addMove data eaV2 => (s.addMove root data (eaV2.map Subtype.val)).1
  | .flush lazy => s.flush root lazy
  | .limitNextJunctionSpeed speed => s.limitNextJunctionSpeed speed
  | .setFlushTime flushTime => { s with junctionFlush := flushTime }

/-- A run of operations on a new queue. -/
def run (root : SquareRoot K) (ops : List (Op K)) : State K :=
  ops.foldl (State.step root) State.init

end Model

end Lookahead
