import Pick.DictProofs
import Pick.ListHeapProofs
import Pick.PnptoolProofs
import Pick.RunProofs

/-! # G-code coordinates (`klippy/extras/gcode_move.py`)

`GCodeMove` keeps three position lists: where the last move went
(`last_position`), where the G-code origin is (`base_position`) and the
offset set by the user (`homing_position`).  The commands write the lists
in place or swap them for others, so it matters which names hold the same
list: the lists live on a heap, and the names are references.

Moves go to the tool head (`klippy/toolhead.py`), directly or through the
pick and place manager (`PnPManager` in `klippy/extras/pnp.py`), which
reads the position back after each move.  Numbers are exact.  What the
kinematics and the axes object to in a move is an argument of each
command.  The printer is ready. -/

namespace GcodeMove

open Attempt ListHeap Pnptool

variable {K : Type}

/-! ## Parameters of a command -/

/-- A command error with its text, or another exception, which shuts the printer down. -/
inductive Error where
  | command (msg : String)
  | internal
  deriving DecidableEq

/-- A parameter: its text, and what `float()` and `int()` make of it. -/
structure Arg (K : Type) where
  text : String
  float : Option K
  int : Option Int

/-- `GCodeCommand`. -/
structure Gcmd (K : Type) where
  commandline : String
  params : List (String × Arg K)

/-- The parameters of a letter and number command; the command itself is the first of them. -/
def traditionalParams (letter : String) (number : Arg K)
    (args : List (String × Arg K)) : List (String × Arg K) :=
  Dict.update [(letter, number)] args

namespace Gcmd

/-- `get` with a parser and the default `None`. -/
def get {α : Type} (gcmd : Gcmd K) (name : String)
    (parser : Arg K → Option α) : Except Error (Option α) :=
  match Dict.get gcmd.params name with
  | none => .ok none
  | some value =>
    match parser value with
    | none => .error (.command ("Error on '" ++ gcmd.commandline
        ++ "': unable to parse " ++ value.text))
    | some v => .ok (some v)

/-- `get_float(name, None)`. -/
def getFloat (gcmd : Gcmd K) (name : String) : Except Error (Option K) := gcmd.get name Arg.float

/-- `get_float(name, default, above=0.)`. -/
def getFloatAbove [Field K] [LinearOrder K] (gcmd : Gcmd K) (name : String)
    (default : K) : Except Error K :=
  match gcmd.getFloat name with
  | .error e => .error e
  | .ok none => .ok default
  | .ok (some v) =>
    if v ≤ 0 then
      .error (.command ("Error on '" ++ gcmd.commandline ++ "': " ++ name ++ " must be above 0.0"))
    else .ok v

/-- `get_int('MOVE', 0)`. -/
def getMove (gcmd : Gcmd K) : Except Error Int :=
  match gcmd.get "MOVE" Arg.int with
  | .error e => .error e
  | .ok v => .ok (v.getD 0)

/-- `get('NAME', 'default')`. -/
def getName (gcmd : Gcmd K) : String := ((Dict.get gcmd.params "NAME").map Arg.text).getD "default"

end Gcmd

/-! ## State -/

/-- An entry of `saved_states`. -/
structure SavedState (K : Type) where
  absoluteCoord : Bool
  absoluteExtrude : Bool
  basePosition : Ref
  lastPosition : Ref
  homingPosition : Ref
  speed : K
  speedFactor : K
  extrudeFactor : K

/-- A tool of the pick and place manager. -/
inductive Tool (K : Type) [Field K] where
  | nozzle (trig : Trig K) (tool : Nozzle K)
  | camera (cam : Camera K)

/-- `r_gcode_letter`, with the check of `PnPManager.__init__`. -/
abbrev RLetter := { l : String // l ∉ ["X", "Y", "Z", "E", "F", "N"] }

/-- `move_transform`: none, or the pick and place manager with its active tool. -/
inductive Transform (K : Type) [Field K] where
  | toolhead
  | pnp (rGcodeLetter : RLetter) (activeTool : Option (Tool K))

/-- The printer as the coordinate commands see it: the fields of `GCodeMove`, the letters of the
    extra axes, and the commanded position and the moves of the tool head. -/
structure Printer (K : Type) [Field K] where
  heap : Heap K
  absoluteCoord : Bool
  absoluteExtrude : Bool
  basePosition : Ref
  lastPosition : Ref
  homingPosition : Ref
  speed : K
  speedFactor : K
  extrudeFactor : K
  savedStates : List (String × SavedState K)
  registeredAxes : List (Option String)
  commandedPos : List K
  moves : List (List K × List K)
  transform : Transform K

/-- The loop of `_update_extra_axes` from place `index` on.  The last test is a substring test. -/
def addAxes : Nat → List (Option String) → List (String × Nat) →
    List (String × Nat)
  | _, [], axisMap => axisMap
  | index, none :: extraAxes, axisMap => addAxes (index + 1) extraAxes axisMap
  | index, some gcodeId :: extraAxes, axisMap =>
    if (Dict.get axisMap gcodeId).isSome ∨ gcodeId ∈ ["", "F", "N", "FN"] then
      addAxes (index + 1) extraAxes axisMap
    else addAxes (index + 1) extraAxes (Dict.set axisMap gcodeId index)

namespace Printer

variable [Field K] (p : Printer K)

/-- The list `base_position`. -/
def base : List K := deref p.heap p.basePosition
/-- The list `last_position`. -/
def last : List K := deref p.heap p.lastPosition
/-- The list `homing_position`. -/
def homing : List K := deref p.heap p.homingPosition

/-- The letters of the tool head's `extra_axes`; the first is the extruder. -/
def extraAxes : List (Option String) := some "E" :: p.registeredAxes

/-- The letters of all axes in the order of the position lists. -/
def axes : List (Option String) := [some "X", some "Y", some "Z"] ++ p.extraAxes

/-- `gcode.axis_map`, as `_update_extra_axes` makes it. -/
def axisMap : List (String × Nat) := addAxes 3 p.extraAxes [("X", 0), ("Y", 1), ("Z", 2), ("E", 3)]

/-- `PnPManager.r_index`. -/
def rIndex (letter : RLetter) : Option Nat := Dict.get p.axisMap letter.1

/-- `position_with_transform`. -/
def positionWithTransform : List K :=
  match p.transform with
  | .toolhead | .pnp _ none => p.commandedPos
  | .pnp letter (some (.nozzle trig tool)) =>
    tool.machineToGcode trig (p.rIndex letter) p.commandedPos
  | .pnp letter (some (.camera cam)) => cam.getPosition (p.rIndex letter) p.commandedPos

/-- `reset_last_position`: the position as a new list. -/
def resetLastPosition : Printer K :=
  { p with
    heap := alloc p.heap p.positionWithTransform
    lastPosition := p.heap.length }

/-- The printer when it gets ready: `__init__`, `_update_extra_axes` for the
    axes registered and `_handle_ready`. -/
def ready (registeredAxes : List (Option String)) (commandedPos : List K)
    (transform : Transform K) : Printer K :=
  let zeros := List.replicate (4 + registeredAxes.length) 0
  resetLastPosition
    { heap := [zeros, List.replicate 4 0, zeros]
      absoluteCoord := true
      absoluteExtrude := true
      basePosition := 0
      lastPosition := 1
      homingPosition := 2
      speed := 25
      speedFactor := 1 / 60
      extrudeFactor := 1
      savedStates := []
      registeredAxes := registeredAxes
      commandedPos := commandedPos
      moves := []
      transform := transform }

/-- `_get_gcode_position`. -/
def getGcodePosition : List K :=
  let pos := List.zipWith (fun lp bp => lp - bp) p.last p.base
  pos.set 3 (pos.getD 3 0 / p.extrudeFactor)

end Printer

/-! ## Moves -/

/-- A state, and the error a command stopped with. -/
abbrev Result (K : Type) [Field K] := Printer K × Option Error

/-- What the kinematics and the axes object to in a move with this start, end and speed. -/
abbrev Check (K : Type) := List K → List K → K → Option String

section Moves

variable [Field K]

/-- Use the value of a parameter, or stop with its error. -/
def withArg {α : Type} (p : Printer K) (x : Except Error α) (f : α → Result K) : Result K :=
  match x with
  | .error e => (p, some e)
  | .ok v => f v

/-- `axes_d` of a move. -/
def axesD (startPos endPos : List K) : List K := List.zipWith (fun sp ep => ep - sp) startPos endPos

/-- The squared distance of a move in X, Y and Z. -/
def moveD2 (startPos endPos : List K) : K :=
  (((axesD startPos endPos).take 3).map fun d => d * d).sum

/-- The square of `.000000001`. -/
def minMoveD2 : K := 1 / 10 ^ 18

/-- The rest of `ToolHead.move`, for a move with this end. -/
def queueMove (check : Check K) (p : Printer K) (endPos : List K) (speed : K) : Result K :=
  match check p.commandedPos endPos speed with
  | some msg => (p, some (.command msg))
  | none =>
    -- every extra axis looks up its distance
    if (axesD p.commandedPos endPos).length < p.axes.length then
      (p, some .internal)
    else ({ p with
      commandedPos := endPos
      moves := p.moves ++ [(p.commandedPos, endPos)] }, none)

variable [LinearOrder K]

/-- `ToolHead.move`: a move shorter than `.000000001` in X, Y and Z keeps
    them, and is no move at all when the other axes do not change. -/
def toolheadMove (check : Check K) (p : Printer K) (newpos : List K) (speed : K) : Result K :=
  if moveD2 p.commandedPos newpos < minMoveD2 then
    if ((axesD p.commandedPos newpos).drop 3).all (· = 0) then (p, none)
    else queueMove check p (p.commandedPos.take 3 ++ newpos.drop 3) speed
  else queueMove check p newpos speed

/-- `PnPTool.move`, `V4L2Camera.move`. -/
def toolMove (check : Check K) (letter : RLetter) (tool : Tool K)
    (p : Printer K) (newpos : List K) (speed : K) : Result K :=
  match tool with
  | .nozzle trig tool =>
    match tool.gcodeToMachine trig (p.rIndex letter) newpos with
    | none => (p, some .internal)
    | some mpos => andThen (toolheadMove check p mpos speed) fun p => (p.resetLastPosition, none)
  | .camera cam =>
    match cam.request (p.rIndex letter) newpos with
    | none => (p, some .internal)
    | some (cam, mpos) =>
      let p := { p with transform := .pnp letter (some (.camera cam)) }
      andThen (toolheadMove check p mpos speed) fun p => (p.resetLastPosition, none)

/-- `move_with_transform`: `ToolHead.move`, `PnPManager.move`. -/
def moveWithTransform (check : Check K) (p : Printer K) (newpos : List K) (speed : K) : Result K :=
  match p.transform with
  | .toolhead => toolheadMove check p newpos speed
  | .pnp _ none => andThen (toolheadMove check p newpos speed) fun p => (p.resetLastPosition, none)
  | .pnp letter (some tool) =>
    andThen (toolMove check letter tool p newpos speed) fun p => (p.resetLastPosition, none)

end Moves

/-! ## Commands -/

section Commands

variable [Field K]

/-- `l[i] = v` for the list at `r`. -/
def writeItem (p : Printer K) (r : Ref) (i : Nat) (v : K) : Result K :=
  if i < (deref p.heap r).length then
    ({ p with heap := setItem p.heap r i v }, none)
  else (p, some .internal)

/-- Use `l[i]` of the list at `r`. -/
def readItem (p : Printer K) (r : Ref) (i : Nat) (f : K → Result K) : Result K :=
  match (deref p.heap r)[i]? with
  | none => (p, some .internal)
  | some v => f v

/-- The text of the errors of `cmd_G1`. -/
def moveError (what : String) (gcmd : Gcmd K) : Error :=
  .command (what ++ " '" ++ gcmd.commandline ++ "'")

/-- One axis of `cmd_G1`. -/
def g1Axis (gcmd : Gcmd K) (axis : String) (pos : Nat) (p : Printer K) : Result K :=
  match Dict.get gcmd.params axis with
  | none => (p, none)
  | some arg =>
    match arg.float with
    | none => (p, some (moveError "Unable to parse move" gcmd))
    | some v =>
      let v := if axis = "E" then v * p.extrudeFactor else v
      let absoluteCoord :=
        if axis = "E" ∧ p.absoluteExtrude = false then false
        else p.absoluteCoord
      if absoluteCoord = false then
        -- value relative to position of last move
        readItem p p.lastPosition pos fun lp => writeItem p p.lastPosition pos (lp + v)
      else
        -- value relative to base coordinate position
        readItem p p.basePosition pos fun bp => writeItem p p.lastPosition pos (v + bp)

/-- The loop of `cmd_G1` over `axis_map`. -/
def g1Axes (gcmd : Gcmd K) : List (String × Nat) → Printer K → Result K
  | [], p => (p, none)
  | (axis, pos) :: axes, p => andThen (g1Axis gcmd axis pos p) (g1Axes gcmd axes)

/-- `gcmd.get_float(a, None)` for an axis that may have no letter. -/
def axisFloat (gcmd : Gcmd K) : Option String → Except Error (Option K)
  | none => .ok none
  | some axis => gcmd.getFloat axis

/-- The loop of `cmd_G92` from place `i` on. -/
def g92Axes : Nat → List (Option K) → Printer K → Result K
  | _, [], p => (p, none)
  | i, none :: offsets, p => g92Axes (i + 1) offsets p
  | i, some offset :: offsets, p =>
    let offset := if i = 3 then offset * p.extrudeFactor else offset
    andThen (readItem p p.lastPosition i fun lp => writeItem p p.basePosition i (lp - offset))
      (g92Axes (i + 1) offsets)

/-- `cmd_G92`: without offsets the last position, the list itself, becomes the base position. -/
def cmdG92 (gcmd : Gcmd K) (p : Printer K) : Result K :=
  withArg p (p.axes.mapM (axisFloat gcmd)) fun offsets =>
    andThen (g92Axes 0 offsets p) fun p =>
      if offsets.all Option.isNone then
        ({ p with basePosition := p.lastPosition }, none)
      else (p, none)

/-- The offset `cmd_SET_GCODE_OFFSET` gets for an axis: the value given or an
    adjustment of the present one. -/
def offsetArg (gcmd : Gcmd K) (p : Printer K) (pos : Nat) :
    Option String → Except Error (Option K)
  | none => .error .internal
  | some axis =>
    match gcmd.getFloat axis with
    | .error e => .error e
    | .ok (some offset) => .ok (some offset)
    | .ok none =>
      match gcmd.getFloat (axis ++ "_ADJUST") with
      | .error e => .error e
      | .ok none => .ok none
      | .ok (some offset) => .ok (some (offset + p.homing.getD pos 0))

/-- One axis of `cmd_SET_GCODE_OFFSET`. -/
def offsetAxis (pos : Nat) (offset : K) (p : Printer K) : Result K :=
  readItem p p.homingPosition pos fun hp =>
    readItem p p.basePosition pos fun bp =>
      andThen (writeItem p p.basePosition pos (bp + (offset - hp))) fun p =>
        writeItem p p.homingPosition pos offset

/-- The loop of `cmd_SET_GCODE_OFFSET` from place `pos` on, with the rest of `move_delta`. -/
def offsetAxes (gcmd : Gcmd K) :
    Nat → List (Option String) → Printer K → List K × Result K
  | _, [], p => ([], (p, none))
  | pos, axis :: axes, p =>
    match offsetArg gcmd p pos axis with
    | .error e => ([], (p, some e))
    | .ok none =>
      let r := offsetAxes gcmd (pos + 1) axes p
      (0 :: r.1, r.2)
    | .ok (some offset) =>
      match offsetAxis pos offset p with
      | (p', some e) => ([], (p', some e))
      | (p', none) =>
        let r := offsetAxes gcmd (pos + 1) axes p'
        ((offset - p.homing.getD pos 0) :: r.1, r.2)

/-- `self.last_position[pos] += delta` from place `pos` on. -/
def addDeltas : Nat → List K → Printer K → Result K
  | _, [], p => (p, none)
  | pos, delta :: moveDelta, p =>
    andThen (readItem p p.lastPosition pos fun lp => writeItem p p.lastPosition pos (lp + delta))
      (addDeltas (pos + 1) moveDelta)

/-- `cmd_SAVE_GCODE_STATE`: the record gets copies of the lists. -/
def cmdSaveGcodeState (gcmd : Gcmd K) (p : Printer K) : Result K :=
  let n := p.heap.length
  ({ p with
    heap := alloc (alloc (alloc p.heap p.base) p.last) p.homing
    savedStates := Dict.set p.savedStates gcmd.getName {
      absoluteCoord := p.absoluteCoord
      absoluteExtrude := p.absoluteExtrude
      basePosition := n
      lastPosition := n + 1
      homingPosition := n + 2
      speed := p.speed
      speedFactor := p.speedFactor
      extrudeFactor := p.extrudeFactor } }, none)

/-- `cmd_RESTORE_GCODE_STATE`: the base position becomes the list of the record, the homing
    position a copy. -/
def restoreFields (state : SavedState K) (p : Printer K) : Printer K :=
  { p with
    heap := alloc p.heap (deref p.heap state.homingPosition)
    absoluteCoord := state.absoluteCoord
    absoluteExtrude := state.absoluteExtrude
    basePosition := state.basePosition
    homingPosition := p.heap.length
    speed := state.speed
    speedFactor := state.speedFactor
    extrudeFactor := state.extrudeFactor }

/-- `self.base_position[3] += e_diff`. -/
def restoreE (state : SavedState K) (p : Printer K) : Result K :=
  readItem p p.lastPosition 3 fun lastE =>
    readItem p state.lastPosition 3 fun savedE =>
      readItem p p.basePosition 3 fun baseE =>
        writeItem p p.basePosition 3 (baseE + (lastE - savedE))

/-- `self.last_position[:3] = state['last_position'][:3]`. -/
def restoreXyz (state : SavedState K) (p : Printer K) : Printer K :=
  { p with
    heap := p.heap.set p.lastPosition ((deref p.heap state.lastPosition).take 3 ++ p.last.drop 3) }

variable [LinearOrder K]

/-- The `F` parameter of `cmd_G1`. -/
def g1Speed (gcmd : Gcmd K) (p : Printer K) : Result K :=
  match Dict.get gcmd.params "F" with
  | none => (p, none)
  | some arg =>
    match arg.float with
    | none => (p, some (moveError "Unable to parse move" gcmd))
    | some gcodeSpeed =>
      if gcodeSpeed ≤ 0 then (p, some (moveError "Invalid speed in" gcmd))
      else ({ p with speed := gcodeSpeed * p.speedFactor }, none)

/-- `cmd_G1`, also for `G0`. -/
def cmdG1 (check : Check K) (gcmd : Gcmd K) (p : Printer K) : Result K :=
  andThen (g1Axes gcmd p.axisMap p) fun p =>
    andThen (g1Speed gcmd p) fun p => moveWithTransform check p p.last p.speed

/-- `cmd_M220`. -/
def cmdM220 (gcmd : Gcmd K) (p : Printer K) : Result K :=
  withArg p (gcmd.getFloatAbove "S" 100) fun s =>
    let value := s / (60 * 100)
    ({ p with
      speed := p.speed / p.speedFactor * value
      speedFactor := value }, none)

/-- `cmd_M221`. -/
def cmdM221 (gcmd : Gcmd K) (p : Printer K) : Result K :=
  withArg p (gcmd.getFloatAbove "S" 100) fun s =>
    let newExtrudeFactor := s / 100
    readItem p p.lastPosition 3 fun lastEPos =>
      readItem p p.basePosition 3 fun baseE =>
        let eValue := (lastEPos - baseE) / p.extrudeFactor
        andThen (writeItem p p.basePosition 3 (lastEPos - eValue * newExtrudeFactor))
          fun p => ({ p with extrudeFactor := newExtrudeFactor }, none)

/-- The `MOVE` part of `cmd_SET_GCODE_OFFSET`. -/
def offsetMove (check : Check K) (gcmd : Gcmd K) (moveDelta : List K) (p : Printer K) : Result K :=
  withArg p gcmd.getMove fun move =>
    if move = 0 then (p, none)
    else
      withArg p (gcmd.getFloatAbove "MOVE_SPEED" p.speed) fun speed =>
        andThen (addDeltas 0 moveDelta p) fun p => moveWithTransform check p p.last speed

/-- `cmd_SET_GCODE_OFFSET`. -/
def cmdSetGcodeOffset (check : Check K) (gcmd : Gcmd K) (p : Printer K) : Result K :=
  let r := offsetAxes gcmd 0 p.axes p
  andThen r.2 (offsetMove check gcmd r.1)

/-- The `MOVE` part of `cmd_RESTORE_GCODE_STATE`. -/
def restoreMove (check : Check K) (gcmd : Gcmd K) (state : SavedState K)
    (p : Printer K) : Result K :=
  withArg p gcmd.getMove fun move =>
    if move = 0 then (p, none)
    else
      withArg p (gcmd.getFloatAbove "MOVE_SPEED" p.speed) fun speed =>
        let p := restoreXyz state p
        moveWithTransform check p p.last speed

/-- `cmd_RESTORE_GCODE_STATE`. -/
def cmdRestoreGcodeState (check : Check K) (gcmd : Gcmd K) (p : Printer K) : Result K :=
  match Dict.get p.savedStates gcmd.getName with
  | none => (p, some (.command ("Unknown g-code state: " ++ gcmd.getName)))
  | some state => andThen (restoreE state (restoreFields state p)) (restoreMove check gcmd state)

/-- The commands that `GCodeMove` registers, those that only report apart. -/
inductive Command (K : Type) where
  | g1 (gcmd : Gcmd K)
  | g20
  | g21
  | m82
  | m83
  | g90
  | g91
  | g92 (gcmd : Gcmd K)
  | m220 (gcmd : Gcmd K)
  | m221 (gcmd : Gcmd K)
  | setGcodeOffset (gcmd : Gcmd K)
  | saveGcodeState (gcmd : Gcmd K)
  | restoreGcodeState (gcmd : Gcmd K)

/-- The handler of a command. -/
def handle (check : Check K) (p : Printer K) : Command K → Result K
  | .g1 gcmd => cmdG1 check gcmd p
  | .g20 => (p, some (.command "Machine does not support G20 (inches) command"))
  | .g21 => (p, none)
  | .m82 => ({ p with absoluteExtrude := true }, none)
  | .m83 => ({ p with absoluteExtrude := false }, none)
  | .g90 => ({ p with absoluteCoord := true }, none)
  | .g91 => ({ p with absoluteCoord := false }, none)
  | .g92 gcmd => cmdG92 gcmd p
  | .m220 gcmd => cmdM220 gcmd p
  | .m221 gcmd => cmdM221 gcmd p
  | .setGcodeOffset gcmd => cmdSetGcodeOffset check gcmd p
  | .saveGcodeState gcmd => cmdSaveGcodeState gcmd p
  | .restoreGcodeState gcmd => cmdRestoreGcodeState check gcmd p

/-- A command as `_process_commands` runs it.  A command error resets the last position
    (`gcode:command_error`); any other exception shuts the printer down. -/
def dispatch (check : Check K) (p : Printer K) (c : Command K) : Option (Printer K) :=
  match handle check p c with
  | (p, none) => some p
  | (p, some (.command _)) => some p.resetLastPosition
  | (_, some .internal) => none

end Commands

end GcodeMove
