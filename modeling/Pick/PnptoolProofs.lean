import Pick.NumberProofs

/-! # Tool coordinates (`klippy/extras/pnp_tool.py`, `camera_v4l.py`)

A pick and place tool sits beside the machine's reference point, so its
coordinates are shifted in X and Y: by a fixed offset, by the tilt of its
axis in proportion to the height, and for a nozzle by the runout of the
tip, which turns with the rotation axis.  A camera has no height and no
rotation of its own and remembers the last ones it was asked for.

Numbers are exact and `cos`, `sin` and `pi` are arbitrary.  A position has
at least the four coordinates X, Y, Z, E.  `none` stands for a Python
exception other than a command error. -/

namespace Pnptool

open List Option

variable {K : Type} [Field K]

/-- What the tools use of `math`. -/
structure Trig (K : Type) where
  cos : K → K
  sin : K → K
  pi : K

/-- The choices of `r_units`. -/
inductive RUnits where
  | deg
  | rad
  deriving DecidableEq

/-- A tool tip, as far as the coordinates need it. -/
structure Tip (K : Type) where
  runoutRadius : K
  runoutPhase : K

/-- `PnPTool`.  With `axis_vector[2] = 0` every conversion raises. -/
structure Nozzle (K : Type) [Field K] where
  tip : Option (Tip K)
  rUnits : RUnits
  offsetX : K
  offsetY : K
  ux : K
  uy : K
  uz : K
  uz_ne_zero : uz ≠ 0

/-- `V4L2Camera` as a tool, with the height and the rotation it remembers.  With
    `axis_vector[2] = 0` every conversion raises. -/
structure Camera (K : Type) [Field K] where
  offsetX : K
  offsetY : K
  cameraZ : K
  ux : K
  uy : K
  uz : K
  uz_ne_zero : uz ≠ 0
  zPlane : K
  rot : K

variable {k rIdx : Nat} {r : K} {mpos : List K}

omit [Field K] in
/-- Writing back what is there changes nothing. -/
theorem set_of_getElem? {l : List K} (h : l[k]? = some r) : l.set k r = l := by
  obtain ⟨hk, rfl⟩ := List.getElem?_eq_some_iff.mp h
  exact set_getElem_self hk

/-! ## Nozzles -/

namespace Nozzle

variable (trig : Trig K) (tool : Nozzle K)

/-- `r_to_rad`. -/
def rToRad (v : K) : K :=
  match tool.rUnits with
  | .deg => v * trig.pi / 180
  | .rad => v

/-- The runout radius. -/
def rho : K := (tool.tip.map Tip.runoutRadius).getD 0
/-- The runout phase. -/
def phi : K := (tool.tip.map Tip.runoutPhase).getD 0

/-- The angle of the runout at rotation `r`. -/
def theta (r : K) : K := tool.rToRad trig r + tool.rToRad trig tool.phi

/-- `gcode_to_machine`. -/
def gcodeToMachine (rIndex : Option Nat) (gpos : List K) : Option (List K) :=
  match rIndex with
  | none => none
  | some rIdx =>
    match gpos[rIdx]? with
    | none => none
    | some rG =>
      let th := tool.theta trig rG
      let zG := gpos.getD 2 0
      let m := gpos.set 0 (gpos.getD 0 0 - tool.offsetX
        - tool.rho * trig.cos th - zG * tool.ux / tool.uz)
      let m := m.set 1 (gpos.getD 1 0 - tool.offsetY
        - tool.rho * trig.sin th - zG * tool.uy / tool.uz)
      let m := m.set 2 zG
      some (m.set rIdx rG)

/-- `machine_to_gcode`. -/
def machineToGcode (rIndex : Option Nat) (mpos : List K) : List K :=
  let rG := (rIndex.bind fun rIdx => mpos[rIdx]?).getD 0
  let th := tool.theta trig rG
  let zG := mpos.getD 2 0
  let g := mpos.set 0 (mpos.getD 0 0 + tool.offsetX
    + tool.rho * trig.cos th + zG * tool.ux / tool.uz)
  let g := g.set 1 (mpos.getD 1 0 + tool.offsetY + tool.rho * trig.sin th + zG * tool.uy / tool.uz)
  g.set 2 zG

/-- A conversion shifts X and Y only. -/
theorem gcodeToMachine_cons {x y z : K} {rest : List K} (hr : rest[k]? = some r) :
    tool.gcodeToMachine trig (some (k + 3)) (x :: y :: z :: rest) = some (
      (x - tool.offsetX - tool.rho * trig.cos (tool.theta trig r)
        - z * tool.ux / tool.uz) ::
      (y - tool.offsetY - tool.rho * trig.sin (tool.theta trig r)
        - z * tool.uy / tool.uz) :: z :: rest) := by
  simp [gcodeToMachine, hr, set_of_getElem? hr]

variable {gpos : List K}

/-- **NOZZLE ROUND TRIP**: the position read back at the machine position of a
    target is the target. -/
theorem machineToGcode_gcodeToMachine (hIdx : 3 ≤ rIdx)
    (h : tool.gcodeToMachine trig (some rIdx) gpos = some mpos) :
    tool.machineToGcode trig (some rIdx) mpos = gpos := by
  obtain ⟨k, rfl⟩ : ∃ k, rIdx = k + 3 := ⟨rIdx - 3, by omega⟩
  match gpos with
  | [] | [_] | [_, _] => simp [gcodeToMachine] at h
  | x :: y :: z :: rest =>
    cases hr : rest[k]? with
    | none => simp [gcodeToMachine, hr] at h
    | some r =>
      rw [gcodeToMachine_cons trig tool hr] at h
      have hm := some.inj h
      subst hm
      have hback : ∀ a b c d : K, a - b - c - d + b + c + d = a := fun a b c d => by ring
      simp [machineToGcode, hr, hback]

/-- **NOZZLE ROUND TRIP**, the other way: the machine position of the position
    read at `mpos` is `mpos`. -/
theorem gcodeToMachine_machineToGcode (hIdx : 3 ≤ rIdx) (hlen : rIdx < mpos.length) :
    tool.gcodeToMachine trig (some rIdx)
      (tool.machineToGcode trig (some rIdx) mpos) = some mpos := by
  obtain ⟨k, rfl⟩ : ∃ k, rIdx = k + 3 := ⟨rIdx - 3, by omega⟩
  match mpos with
  | [] | [_] | [_, _] =>
    simp only [length_cons, length_nil] at hlen
    omega
  | x :: y :: z :: rest =>
    have hk : k < rest.length := by
      simp only [length_cons] at hlen
      omega
    have hr : rest[k]? = some rest[k] := getElem?_eq_getElem hk
    have hread : tool.machineToGcode trig (some (k + 3)) (x :: y :: z :: rest)
        = (x + tool.offsetX + tool.rho * trig.cos (tool.theta trig rest[k])
            + z * tool.ux / tool.uz) ::
          (y + tool.offsetY + tool.rho * trig.sin (tool.theta trig rest[k])
            + z * tool.uy / tool.uz) :: z :: rest := by
      simp [machineToGcode, hr]
    have hback : ∀ a b c d : K, a + b + c + d - b - c - d = a := fun a b c d => by ring
    rw [hread, gcodeToMachine_cons trig tool hr, hback, hback]

theorem length_gcodeToMachine {rIndex : Option Nat}
    (h : tool.gcodeToMachine trig rIndex gpos = some mpos) : mpos.length = gpos.length := by
  cases rIndex with
  | none => exact nomatch h
  | some rIdx =>
    cases hr : gpos[rIdx]? with
    | none => simp [gcodeToMachine, hr] at h
    | some r =>
      simp only [gcodeToMachine, hr, some.injEq] at h
      subst h
      simp only [length_set]

theorem length_machineToGcode (rIndex : Option Nat) (mpos : List K) :
    (tool.machineToGcode trig rIndex mpos).length = mpos.length := by
  simp [machineToGcode]

/-- Both conversions keep Z. -/
theorem getD_machineToGcode (rIndex : Option Nat) (mpos : List K) :
    (tool.machineToGcode trig rIndex mpos).getD 2 0 = mpos.getD 2 0 := by
  match mpos with
  | [] | [_] | [_, _] => simp [machineToGcode]
  | x :: y :: z :: rest => simp [machineToGcode]

theorem getD_gcodeToMachine (hIdx : 3 ≤ rIdx)
    (h : tool.gcodeToMachine trig (some rIdx) gpos = some mpos) :
    mpos.getD 2 0 = gpos.getD 2 0 := by
  rw [← machineToGcode_gcodeToMachine trig tool hIdx h, getD_machineToGcode]

end Nozzle

/-! ## Cameras -/

namespace Camera

variable (cam : Camera K)

/-- `gcode_to_machine`. -/
def gcodeToMachine (gpos : List K) : List K :=
  let dz := gpos.getD 2 0 - cam.cameraZ
  let machine := gpos.set 0 (gpos.getD 0 0 - cam.offsetX - dz * cam.ux / cam.uz)
  let machine := machine.set 1 (gpos.getD 1 0 - cam.offsetY - dz * cam.uy / cam.uz)
  machine.set 2 (gpos.getD 2 0)

/-- `machine_to_gcode`. -/
def machineToGcode (rIndex : Option Nat) (mpos : List K) : List K :=
  let dz := cam.zPlane - cam.cameraZ
  let gpos := mpos.set 0 (mpos.getD 0 0 + cam.offsetX + dz * cam.ux / cam.uz)
  let gpos := gpos.set 1 (mpos.getD 1 0 + cam.offsetY + dz * cam.uy / cam.uz)
  let gpos := gpos.set 2 cam.zPlane
  match rIndex with
  | none => gpos
  | some rIdx => (gpos ++ List.replicate (rIdx + 1 - gpos.length) 0).set rIdx cam.rot

/-- `get_position`, from the position of the tool head. -/
def getPosition (rIndex : Option Nat) (mpos : List K) : List K :=
  cam.machineToGcode rIndex (mpos.set 2 cam.zPlane)

/-- What `move` asks of the tool head, and the camera with the height and the
    rotation it now remembers. -/
def request (rIndex : Option Nat) (newpos : List K) : Option (Camera K × List K) :=
  match rIndex with
  | none => none
  | some rIdx =>
    match newpos[rIdx]? with
    | none => none
    | some rot =>
      let cam := { cam with zPlane := newpos.getD 2 0, rot := rot }
      some (cam, ((cam.gcodeToMachine newpos).set rIdx rot).set 2 0)

/-- A request shifts X and Y and leaves the height at zero. -/
theorem request_cons {x y z : K} {rest : List K} (hr : rest[k]? = some r) :
    cam.request (some (k + 3)) (x :: y :: z :: rest) =
      some ({ cam with zPlane := z, rot := r },
        (x - cam.offsetX - (z - cam.cameraZ) * cam.ux / cam.uz) ::
        (y - cam.offsetY - (z - cam.cameraZ) * cam.uy / cam.uz) :: 0 :: rest) := by
  simp [request, gcodeToMachine, hr, set_of_getElem? hr]

variable {newpos mpos : List K} {cam' : Camera K}

/-- **CAMERA ROUND TRIP**: the position a camera reports where its request
    leads is the target of the request. -/
theorem getPosition_request (hIdx : 3 ≤ rIdx)
    (h : cam.request (some rIdx) newpos = some (cam', mpos)) :
    cam'.getPosition (some rIdx) mpos = newpos := by
  obtain ⟨k, rfl⟩ : ∃ k, rIdx = k + 3 := ⟨rIdx - 3, by omega⟩
  match newpos with
  | [] | [_] | [_, _] => simp [request] at h
  | x :: y :: z :: rest =>
    cases hr : rest[k]? with
    | none => simp [request, hr] at h
    | some r =>
      rw [request_cons cam hr] at h
      obtain ⟨hcam, hm⟩ := Prod.mk.inj (some.inj h)
      subst hcam hm
      -- the list is long enough, so nothing is appended
      have hk : k < rest.length := (List.getElem?_eq_some_iff.mp hr).1
      have hlen : k + 3 + 1 - (rest.length + 1 + 1 + 1) = 0 := by omega
      have hback : ∀ a b c : K, a - b - c + b + c = a := fun a b c => by ring
      simp [getPosition, machineToGcode, hlen, set_of_getElem? hr, hback]

section Made

variable {rIndex : Option Nat} (h : cam.request rIndex newpos = some (cam', mpos))
include h

/-- **WHAT A REQUEST SAYS**: the target has a rotation, which the camera remembers. -/
theorem request_some : ∃ rIdx r, rIndex = some rIdx ∧ newpos[rIdx]? = some r ∧
    cam' = { cam with zPlane := newpos.getD 2 0, rot := r } ∧
    mpos = ((cam'.gcodeToMachine newpos).set rIdx r).set 2 0 := by
  cases rIndex with
  | none => exact nomatch h
  | some rIdx =>
    cases hr : newpos[rIdx]? with
    | none => simp [request, hr] at h
    | some r =>
      simp only [request, hr, some.injEq, Prod.mk.injEq] at h
      obtain ⟨rfl, rfl⟩ := h
      exact ⟨rIdx, r, rfl, hr, rfl, rfl⟩

theorem length_request : mpos.length = newpos.length := by
  obtain ⟨rIdx, r, -, -, -, rfl⟩ := cam.request_some h
  simp only [gcodeToMachine, length_set]

/-- A request has Z = 0. -/
theorem getD_request : mpos.getD 2 0 = 0 := by
  obtain ⟨rIdx, r, -, -, -, rfl⟩ := cam.request_some h
  rw [getD_eq_getElem?_getD, getElem?_set, if_pos rfl]
  split
  · rfl
  · rfl

/-- The request depends on the target and the camera's fixed data only: made
    again by the camera it left, it is the same. -/
theorem request_again : cam'.request rIndex newpos = some (cam', mpos) := by
  obtain ⟨rIdx, r, rfl, hr, rfl, rfl⟩ := cam.request_some h
  simp only [request, hr]

end Made

theorem length_getPosition (h : rIdx < mpos.length) :
    (cam.getPosition (some rIdx) mpos).length = mpos.length := by
  simp [getPosition, machineToGcode]
  omega

end Camera

end Pnptool
