import Pick.GcodeMoveProofs

/-! # The pick and place manager (`klippy/extras/pnp.py`)

`PnPManager` stands between the G-code coordinates and the tool head: it
turns moves and positions over to the active tool, changes tools, and moves
the tool head for web requests.

A tool change swaps the stepper behind Z and the stepper behind the rotation
axis.  The rotation axis is an extra axis of the tool head
(`klippy/toolhead.py`), as are the axes that `MANUAL_STEPPER GCODE_AXIS=`
registers (`klippy/extras/manual_stepper.py`), so a tool change takes it out
of all position lists and puts it back at their end.

The printer is ready, and the manager's `next_transform` is the tool head. -/

namespace Pnp

open Attempt ListHeap Pnptool GcodeMove

variable {K : Type}

/-! ## State -/

/-- An object that can be an extra axis: a `ManualStepper` or a `VirtualGcodeAxis`. -/
structure Axis (K : Type) where
  gcodeId : Option String
  commandedPos : K

/-- The manual steppers, the virtual axis of the manager and those of the cameras. -/
inductive AxisId where
  | manualStepper (n : Nat)
  | virtualR
  | cameraR (n : Nat)
  deriving DecidableEq

/-- The index of a Z stepper. -/
abbrev ZStepperId := Nat

/-- A tool of the manager with its axes.  A camera has no stepper for Z, and
    `z_sign` is `1` or `-1`. -/
structure ToolEntry (K : Type) [Field K] where
  tool : Tool K
  rStepper : AxisId
  zStepper : Option ZStepperId
  zSign : SignType

/-- The printer with the fields of `PnPManager`, the extra axes and the coefficients of the Z
    steppers.  The active tool is that of `printer.transform`; its entry in `tools` is as it was
    when selected. -/
structure Machine (K : Type) [Field K] where
  printer : Printer K
  posAxes : List String
  extra : List AxisId
  axes : AxisId → Axis K
  tools : List (String × ToolEntry K)
  rGcodeLetter : RLetter
  active : Option String
  boundR : AxisId
  fallbackZ : ZStepperId
  zCoeffs : ZStepperId → SignType

/-- A machine, and the error an operation stopped with. -/
abbrev Outcome (K : Type) [Field K] := Machine K × Option Error

section Model

variable [Field K]

/-- What the printer does, done by the machine. -/
def Machine.on (m : Machine K) (f : Printer K → GcodeMove.Result K) : Outcome K :=
  ({ m with printer := (f m.printer).1 }, (f m.printer).2)

/-- `get_position`. -/
def Machine.getPosition (m : Machine K) : List K := m.printer.positionWithTransform

/-- `reset_last_position`. -/
def Machine.resetLastPosition (m : Machine K) : Machine K :=
  { m with printer := m.printer.resetLastPosition }

/-- `r_index`. -/
def Machine.rIndex (m : Machine K) : Option Nat := m.printer.rIndex m.rGcodeLetter

/-! ## Extra axes -/

/-- `base_position[4:] = [0.] * (len(extra_axes) - 4)` for a position list. -/
def clearExtra (p : Printer K) (r : Ref) : Printer K :=
  { p with
    heap := p.heap.set r ((deref p.heap r).take 4 ++ List.replicate p.registeredAxes.length 0) }

/-- `GCodeMove._update_extra_axes`; the axis map is read off the axes. -/
def updateExtraAxes (p : Printer K) : Printer K :=
  let p := clearExtra p p.basePosition
  (clearExtra p p.homingPosition).resetLastPosition

/-- `_flush_lookahead` as the axes see it: each has been told where the queued moves end. -/
def Machine.flushLookahead (m : Machine K) : Machine K :=
  { m with
    axes := fun id =>
      match m.extra.idxOf? id with
      | none => m.axes id
      | some i => { m.axes id with
          commandedPos := m.printer.commandedPos.getD (4 + i) (m.axes id).commandedPos } }

/-- `ToolHead.add_extra_axis`, for an axis with this letter. -/
def Machine.addExtraAxis (m : Machine K) (id : AxisId) (letter : String)
    (axisPos : K) : Machine K :=
  let m := m.flushLookahead
  let posAxes := if letter ∈ m.posAxes then m.posAxes else m.posAxes ++ [letter]
  let commandedPos :=
    if m.printer.commandedPos.length < posAxes.length then
      m.printer.commandedPos ++ [axisPos]
    else m.printer.commandedPos
  { m with
    extra := m.extra ++ [id]
    posAxes := posAxes
    printer := updateExtraAxes { m.printer with
      registeredAxes := m.printer.registeredAxes ++ [some letter]
      commandedPos := commandedPos } }

/-- `ToolHead.remove_extra_axis`, for an axis with this letter. -/
def Machine.removeExtraAxis (m : Machine K) (id : AxisId) (letter : String) : Outcome K :=
  let m := m.flushLookahead
  match m.extra.idxOf? id with
  | none => (m, none)
  | some i =>
    if m.printer.commandedPos.length ≤ 4 + i ∨ m.posAxes.length ≤ 4 + i ∨
        Dict.get m.printer.axisMap letter = none then
      (m, some .internal)
    else
      ({ m with
        extra := m.extra.eraseIdx i
        posAxes := m.posAxes.eraseIdx (4 + i)
        printer := updateExtraAxes { m.printer with
          registeredAxes := m.printer.registeredAxes.eraseIdx i
          commandedPos := m.printer.commandedPos.eraseIdx (4 + i) } }, none)

/-- Set `axis_gcode_id` of an axis. -/
def Machine.setGcodeId (m : Machine K) (id : AxisId) (letter : Option String) : Machine K :=
  { m with
    axes := Function.update m.axes id { m.axes id with gcodeId := letter } }

/-- `unbind_gcode_axis`. -/
def Machine.unbindGcodeAxis (m : Machine K) (id : AxisId) : Outcome K :=
  match (m.axes id).gcodeId with
  | none => (m, none)
  | some letter => andThen (m.removeExtraAxis id letter) fun m => (m.setGcodeId id none, none)

/-- The letters an axis may have. -/
def isGcodeAxis (letter : String) : Bool :=
  letter.length = 1 && letter.toList.all Char.isUpper && letter ∉ ["X", "Y", "Z", "E", "F", "N"]

/-- The common part of `bind_gcode_axis` and `command_with_gcode_axis`: the checks, and the
    registration. -/
def Machine.registerAxis (m : Machine K) (id : AxisId) (letter : String) : Outcome K :=
  if ¬ isGcodeAxis letter then (m, some (.command "Not a valid GCODE_AXIS"))
  else if some letter ∈ m.printer.extraAxes then
    (m, some (.command ("Axis '" ++ letter ++ "' already registered")))
  else
    let axisPos := (m.axes id).commandedPos
    ((m.setGcodeId id (some letter)).addExtraAxis id letter axisPos, none)

/-- `bind_gcode_axis`.  The item appended to a last position that is too short
    goes away with the reset. -/
def Machine.bindGcodeAxis (m : Machine K) (id : AxisId) (letter : String) : Outcome K :=
  if (m.axes id).gcodeId = some letter then (m, none)
  else
    andThen (m.unbindGcodeAxis id) fun m =>
      andThen (m.registerAxis id letter) fun m => (m.resetLastPosition, none)

/-- `command_with_gcode_axis` of a manual stepper. -/
def Machine.commandWithGcodeAxis (m : Machine K) (id : AxisId) (gcodeAxis : String) : Outcome K :=
  match (m.axes id).gcodeId with
  | some letter =>
    if gcodeAxis ≠ "" then (m, some (.command "Must unregister axis first"))
    else
      andThen (m.removeExtraAxis id letter) fun m => (m.setGcodeId id none, none)
  | none =>
    if gcodeAxis = "" then (m, none)
    else m.registerAxis id gcodeAxis

/-! ## Moves -/

variable [LinearOrder K]

/-- `move`. -/
def Machine.move (check : Check K) (m : Machine K) (newpos : List K) (speed : K) : Outcome K :=
  m.on fun p => moveWithTransform check p newpos speed

/-- The loop `newpos[i] = dest[i]` of the tools' `safe_move`. -/
def overlay : List K → List (Option K) → Option (List K)
  | curr, [] => some curr
  | [], none :: dest => overlay [] dest
  | [], some _ :: _ => none
  | c :: curr, d :: dest => (overlay curr dest).map (d.getD c :: ·)

/-- `PnPTool.safe_move` and `V4L2Camera.safe_move`. -/
def toolSafeMove (check : Check K) (letter : RLetter) (tool : Tool K)
    (p : Printer K) (dest : List (Option K)) (speed : K) : GcodeMove.Result K :=
  let curr := p.positionWithTransform
  match overlay curr dest with
  | none => (p, some .internal)
  | some newpos =>
    match tool with
    | .nozzle _ _ =>
      andThen
        (toolMove check letter tool p (curr.set 2 0) speed) fun p =>
      andThen
        (toolMove check letter tool p (newpos.set 2 0) speed) fun p =>
      toolMove check letter tool p newpos speed
    | .camera _ => toolMove check letter tool p newpos speed

/-- `PnPManager.safe_move`. -/
def safeMove (check : Check K) (p : Printer K) (newpos : List K) (speed : K) : GcodeMove.Result K :=
  match p.transform with
  | .toolhead | .pnp _ none => toolheadMove check p newpos speed
  | .pnp letter (some tool) => toolSafeMove check letter tool p (newpos.map some) speed

/-- `safe_move`. -/
def Machine.safeMove (check : Check K) (m : Machine K) (newpos : List K) (speed : K) : Outcome K :=
  m.on fun p => Pnp.safeMove check p newpos speed

/-! ## Tools -/

/-- `abs(pos[2]) > 1e-6`. -/
def parkTolerance : K := 1 / 10 ^ 6

/-- `_park_z_actuator`. -/
def Machine.parkZActuator (check : Check K) (m : Machine K) : Outcome K :=
  let pos := m.getPosition
  if |pos.getD 2 0| > parkTolerance then
    m.move check (pos.set 2 0) m.printer.speed
  else (m, none)

/-- `_rebind_z`: every Z stepper gets a new coefficient, and the position it has at Z = 0. -/
def Machine.rebindZ (m : Machine K) (tool : Option (ToolEntry K)) : Machine K :=
  let (target, az) :=
    match tool with
    | some ⟨_, _, some zs, zSign⟩ => (zs, zSign)
    | _ => (m.fallbackZ, 1)
  { m with zCoeffs := fun z => if z = target then az else 0 }

/-- `want` of `_rebind_r`. -/
def wantedR : Option (ToolEntry K) → AxisId
  | none => .virtualR
  | some tool => tool.rStepper

/-- `_rebind_r`. -/
def Machine.rebindR (m : Machine K) (tool : Option (ToolEntry K)) : Outcome K :=
  andThen (m.unbindGcodeAxis m.boundR) fun m =>
    andThen (m.bindGcodeAxis (wantedR tool) m.rGcodeLetter.1) fun m =>
      ({ m with boundR := wantedR tool }, none)

/-- The tool that was active, with what it remembers, goes back to the others. -/
def Machine.storeActive (m : Machine K) : Machine K :=
  match m.active, m.printer.transform with
  | some name, .pnp _ (some tool) =>
    match Dict.get m.tools name with
    | some entry => { m with
        tools := Dict.set m.tools name { entry with tool := tool } }
    | none => m
  | _, _ => m

/-- `self.active_tool = tool`. -/
def Machine.setActive (m : Machine K) (name : Option String) : Machine K :=
  let m := m.storeActive
  let tool := name.bind fun n => (Dict.get m.tools n).map ToolEntry.tool
  { m with
    active := name
    printer := { m.printer with transform := .pnp m.rGcodeLetter tool } }

/-- `select_tool` up to `self.active_tool = tool`. -/
def Machine.changeTool (check : Check K) (m : Machine K) (name : Option String) : Outcome K :=
  let entry := name.bind (Dict.get m.tools)
  andThen (m.parkZActuator check) fun m =>
    andThen ((m.rebindZ entry).rebindR entry) fun m => (m.setActive name, none)

/-- `select_tool`. -/
def Machine.selectTool (check : Check K) (m : Machine K) (name : Option String)
    (wantMove : Bool) : Outcome K :=
  let pos := m.getPosition
  andThen (m.changeTool check name) fun m =>
    andThen (if wantMove then m.safeMove check pos m.printer.speed else (m, none))
      fun m => (m.resetLastPosition, none)

/-- A list of names as Python shows it. -/
def showNames (names : List String) : String :=
  "[" ++ ", ".intercalate (names.map fun n => "'" ++ n ++ "'") ++ "]"

/-- `lookup_tool`, for a name that is given. -/
def Machine.lookupTool (m : Machine K) (toolname : String) : Except Error String :=
  let key := toolname.toUpper
  if (Dict.get m.tools key).isNone then
    .error (.command ("Unknown tool '" ++ toolname ++ "'. Known: "
      ++ showNames (Dict.keys m.tools) ++ ". Use 'NONE' to unset"))
  else .ok key

/-- `cmd_PNP_TOOL` with the parameters `SET` and `MOVE`. -/
def Machine.cmdPnpTool (check : Check K) (m : Machine K) (set : Option String)
    (wantMove : Bool) : Outcome K :=
  match set with
  | none => (m, none)
  | some toolname =>
    if toolname.toUpper = "NONE" then m.selectTool check none wantMove
    else
      match m.lookupTool toolname with
      | .error e => (m, some e)
      | .ok name =>
        if m.active = some name then (m, none)
        else m.selectTool check (some name) wantMove

/-- `_webhooks_tool`. -/
def Machine.webhooksTool (check : Check K) (m : Machine K)
    (tool : Option String) (wantMove : Bool) : Outcome K :=
  match tool with
  | none => (m, none)
  | some toolname =>
    match m.lookupTool toolname with
    | .error e => (m, some e)
    | .ok name =>
      if m.active = some name then (m, none)
      else m.selectTool check (some name) wantMove

/-! ## Positions to go to -/

/-- `f` of a web request, or the speed of the G-code. -/
def Machine.webSpeed (m : Machine K) (f : Option K) : K :=
  match f with
  | none => m.printer.speed
  | some f => f * m.printer.speedFactor

/-- The values of a web request for `x`, `y`, `z`, `e` and `r`. -/
structure Coords (α : Type) where
  x : α
  y : α
  z : α
  e : α
  r : α

/-- The coordinates in order. -/
def Coords.toList {α : Type} (c : Coords α) : List α := [c.x, c.y, c.z, c.e, c.r]

/-- The loop of `_webhooks_jog`: the fifth coordinate is that of the first axis
    behind the extruder. -/
def Machine.jogTarget (m : Machine K) (jog : Coords K) : List K :=
  List.zipWith (· + ·) (m.getPosition.take 5) jog.toList ++ m.getPosition.drop 5

/-- `_webhooks_jog`. -/
def Machine.webhooksJog (check : Check K) (m : Machine K) (jog : Coords K)
    (f : Option K) (safe : Bool) : Outcome K :=
  if m.getPosition.length < 5 then (m, some .internal)
  -- dont jerk z if not doing xy moves
  else if safe ∧ ¬ (jog.x = 0 ∧ jog.y = 0) then
    m.safeMove check (m.jogTarget jog) (m.webSpeed f)
  else m.move check (m.jogTarget jog) (m.webSpeed f)

/-- `_webhooks_move`. -/
def Machine.webhooksMove (check : Check K) (m : Machine K)
    (target : Coords (Option K)) (f : Option K) (safe : Bool) : Outcome K :=
  match overlay m.getPosition target.toList with
  | none => (m, some .internal)
  | some pos =>
    if safe ∧ ¬ (target.x = none ∧ target.y = none) then
      m.safeMove check pos (m.webSpeed f)
    else m.move check pos (m.webSpeed f)

/-- A location of the configuration; `r` may also be given as `rot`. -/
structure Location (K : Type) where
  x : Option K
  y : Option K
  z : Option K
  r : Option K

/-- `pos_from_dict`. -/
def Machine.posFromDict (m : Machine K) (d : Location K) : Option (List K) :=
  match overlay m.getPosition [d.x, d.y, d.z], d.r with
  | none, _ => none
  | some pos, none => some pos
  | some pos, some r =>
    match m.rIndex with
    | none => none
    | some i => if i < pos.length then some (pos.set i r) else none

/-- `cmd_PNP_GOTO` for a target that has been looked up, by way of `_goto`. -/
def Machine.cmdPnpGoto (check : Check K) (m : Machine K) (loc : Location K)
    (speed : Option K) : Outcome K :=
  match m.posFromDict loc with
  | none => (m, some .internal)
  | some pos => m.safeMove check pos (speed.getD m.printer.speed)

/-! ## Requests -/

/-- A manager that gets ready, with no tool.  Its virtual axis has the rotation letter. -/
def Machine.ready (rGcodeLetter : RLetter) (pos : Coords K)
    (tools : List (String × ToolEntry K)) (commandedPos : AxisId → K)
    (firstZ fallbackZ : ZStepperId) : Machine K where
  printer := .ready [some rGcodeLetter.1] pos.toList (.pnp rGcodeLetter none)
  posAxes := ["x", "y", "z", "e", rGcodeLetter.1]
  extra := [.virtualR]
  axes id := ⟨if id = .virtualR then some rGcodeLetter.1 else none, commandedPos id⟩
  tools := tools
  rGcodeLetter := rGcodeLetter
  active := none
  boundR := .virtualR
  fallbackZ := fallbackZ
  zCoeffs z := if z = firstZ then 1 else 0

/-- The G-code commands and the web requests that move the machine or change its
    axes or its tool. -/
inductive Request (K : Type) where
  | gcode (c : Command K)
  | manualStepper (n : Nat) (gcodeAxis : String)
  | pnpTool (set : Option String) (wantMove : Bool)
  | pnpGoto (loc : Location K) (speed : Option K)
  | jog (jog : Coords K) (f : Option K) (safe : Bool)
  | move (target : Coords (Option K)) (f : Option K) (safe : Bool)
  | tool (tool : Option String) (wantMove : Bool)

/-- It is run by `_process_commands`. -/
def Request.isCommand : Request K → Bool
  | .gcode _ | .manualStepper _ _ | .pnpTool _ _ | .pnpGoto _ _ => true
  | .jog _ _ _ | .move _ _ _ | .tool _ _ => false

/-- The handler of a request. -/
def Machine.handle (check : Check K) (m : Machine K) : Request K → Outcome K
  | .gcode c => m.on fun p => GcodeMove.handle check p c
  | .manualStepper n gcodeAxis => m.commandWithGcodeAxis (.manualStepper n) gcodeAxis
  | .pnpTool set wantMove => m.cmdPnpTool check set wantMove
  | .pnpGoto loc speed => m.cmdPnpGoto check loc speed
  | .jog jog f safe => m.webhooksJog check jog f safe
  | .move target f safe => m.webhooksMove check target f safe
  | .tool tool wantMove => m.webhooksTool check tool wantMove

/-- A request as `_process_commands` and `_process_request` run it.  An error of a command resets
    the last position; after any other exception the printer is shut down. -/
def Machine.step (check : Check K) (m : Machine K) (r : Request K) : Option (Machine K) :=
  match m.handle check r with
  | (m, none) => some m
  | (m, some (.command _)) => some (if r.isCommand then m.resetLastPosition else m)
  | (_, some .internal) => none

/-- Request after request; the checks of their moves may be any. -/
def Machine.run (m : Machine K) (rs : List (Check K × Request K)) : Option (Machine K) :=
  rs.foldlM (fun m r => m.step r.1 r.2) m

end Model

end Pnp
