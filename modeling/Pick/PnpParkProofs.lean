import Pick.PnpLiftProofs

/-! # Tool changes and the Z reference

`_rebind_z` gives every Z stepper the position it has at Z = 0, so the tool head has
to be there.  `_park_z_actuator` sees to it by the position of the active tool.  For
a nozzle its Z is that of the tool head; for a camera it is the height of the plane
it looks at, and Z of the tool head is zero because every move of the camera puts it
there. -/

namespace Pnp

open Attempt GcodeMove List ListHeap Option Pnptool

variable {K : Type} [Field K]

/-! ## Homing -/

/-- What a homing of Z leaves (`klippy/extras/homing.py`, `_handle_home_rails_end`): the tool
    head is somewhere, the position is read back, and Z has its homing offset. -/
def Machine.homeZ (m : Machine K) (x y z : K) : Outcome K :=
  m.on fun p =>
    let p := { p with commandedPos := x :: y :: z :: p.commandedPos.drop 3 }
    let p := p.resetLastPosition
    readItem p p.homingPosition 2 fun hp => writeItem p p.basePosition 2 hp

/-- A request, or a homing of Z. -/
inductive Event (K : Type) where
  | request (check : Check K) (r : Request K)
  | homeZ (x y z : K)

/-- One event. -/
def Machine.react [LinearOrder K] (m : Machine K) : Event K → Option (Machine K)
  | .request check r => m.step check r
  | .homeZ x y z =>
    match m.homeZ x y z with
    | (m, none) => some m
    | (_, some _) => none

/-- A run of events. -/
def Machine.reactAll [LinearOrder K] (m : Machine K) (es : List (Event K)) : Option (Machine K) :=
  es.foldlM (fun m e => m.react e) m

/-! ## Z of the tool head -/

/-- The commanded Z. -/
def zOf (p : Printer K) : K := p.commandedPos.getD 2 0

/-- How far a Z stepper is from where it is at Z = 0; `_rebind_z` takes it to be there. -/
def zShift (m : Machine K) (z : ZStepperId) : K := m.zCoeffs z * zOf m.printer

variable {p q : Printer K} {newpos mpos : List K}

/-- A request has Z = 0 with a camera, and the target's Z otherwise. -/
theorem request_z {tr : Transform K} (h : request p newpos = some (tr, mpos)) :
    (HasCamera p ∧ mpos.getD 2 0 = 0) ∨ (¬ HasCamera p ∧ mpos.getD 2 0 = newpos.getD 2 0) := by
  have hno : ∀ tool, p.transform = tool → (∀ letter cam, tool ≠ .pnp letter (some (.camera cam))) →
      ¬ HasCamera p := by
    rintro tool htr hne ⟨letter, cam, hcam⟩
    exact hne letter cam (htr.symm.trans hcam)
  cases request_asks h with
  | toolhead htr | untooled htr => exact .inr ⟨hno _ htr nofun, rfl⟩
  | nozzle htr hidx hm =>
    exact .inr ⟨hno _ htr nofun, Nozzle.getD_gcodeToMachine _ _ (le_rIndex p hidx) hm⟩
  | camera htr _ hm => exact .inl ⟨⟨_, _, htr⟩, Camera.getD_request _ hm⟩

/-- Without a camera Z of the tool is that of the tool head. -/
theorem position_z (hcam : ¬ HasCamera p) :
    p.positionWithTransform.length = p.commandedPos.length ∧
      p.positionWithTransform.getD 2 0 = zOf p := by
  rw [Printer.positionWithTransform]
  split
  · exact ⟨rfl, rfl⟩
  · exact ⟨rfl, rfl⟩
  · exact ⟨Nozzle.length_machineToGcode .., Nozzle.getD_machineToGcode ..⟩
  · rename_i letter cam htr
    exact absurd ⟨letter, cam, htr⟩ hcam

/-- A camera stays a camera. -/
theorem request_camera (hcam : HasCamera p)
    (h : request p newpos = some (q.transform, mpos)) : HasCamera q := by
  obtain ⟨letter, cam, htr⟩ := hcam
  rw [request, htr] at h
  obtain ⟨r, -, he⟩ := map_eq_some_iff.mp h
  exact ⟨letter, r.1, (Prod.mk.inj he).1.symm⟩

variable [LinearOrder K]

/-- The four coordinates X, Y, Z and E are there, and with a camera Z is about zero. -/
structure Parked (p : Printer K) : Prop where
  four : 4 ≤ p.commandedPos.length
  camera : HasCamera p → |zOf p| ≤ parkTolerance

/-- A move of the tool head that is made, or not, or refused. -/
theorem toolheadMove_z (check : Check K) (newpos : List K) (speed : K)
    (hfour : 4 ≤ p.commandedPos.length) :
    (toolheadMove check p newpos speed).1.transform = p.transform ∧
    4 ≤ (toolheadMove check p newpos speed).1.commandedPos.length ∧
    (zOf (toolheadMove check p newpos speed).1 = zOf p ∨
      zOf (toolheadMove check p newpos speed).1 = newpos.getD 2 0) := by
  generalize h : toolheadMove check p newpos speed = r
  cases toolheadMove_heads h with
  | stays _ _ | refused e => exact ⟨rfl, hfour, .inl rfl⟩
  | @goes endPos hend hlong =>
    have hax := length_axes p
    refine ⟨rfl, show 4 ≤ endPos.length by omega, ?_⟩
    rcases hend with rfl | ⟨-, rfl⟩
    · exact .inr rfl
    · -- X, Y and Z stay
      refine .inl ?_
      show (p.commandedPos.take 3 ++ newpos.drop 3).getD 2 0 = zOf p
      rw [zOf, getD_eq_getElem?_getD, getD_eq_getElem?_getD,
        getElem?_append_left (by rw [length_take]; omega),
        getElem?_take_of_lt (by omega)]

theorem parkTolerance_nonneg [IsStrictOrderedRing K] : (0 : K) ≤ parkTolerance := by
  rw [parkTolerance]
  positivity

/-- The displacement of a move is at least that in Z. -/
theorem sq_le_moveD2 [IsStrictOrderedRing K] {xs ys : List K}
    (hxs : 3 ≤ xs.length) (hys : 3 ≤ ys.length) :
    (ys.getD 2 0 - xs.getD 2 0) * (ys.getD 2 0 - xs.getD 2 0) ≤ moveD2 xs ys := by
  match xs, hxs, ys, hys with
  | x₀ :: x₁ :: x₂ :: xs, _, y₀ :: y₁ :: y₂ :: ys, _ =>
    have hsum : moveD2 (x₀ :: x₁ :: x₂ :: xs) (y₀ :: y₁ :: y₂ :: ys)
        = (y₀ - x₀) * (y₀ - x₀) + ((y₁ - x₁) * (y₁ - x₁) + (y₂ - x₂) * (y₂ - x₂)) := by
      simp [moveD2, axesD]
    rw [hsum]
    have h₀ := mul_self_nonneg (y₀ - x₀)
    have h₁ := mul_self_nonneg (y₁ - x₁)
    show (y₂ - x₂) * (y₂ - x₂) ≤ _
    linarith

/-- A move that is long enough in Z goes there. -/
theorem toolheadMove_far [IsStrictOrderedRing K] {check : Check K}
    {speed : K} (hfour : 4 ≤ p.commandedPos.length)
    (hfar : parkTolerance < |newpos.getD 2 0 - zOf p|) (hthree : 3 ≤ newpos.length)
    (h : toolheadMove check p newpos speed = (q, none)) : zOf q = newpos.getD 2 0 := by
  have hmin : (minMoveD2 : K) ≤ parkTolerance * parkTolerance := by
    rw [minMoveD2, parkTolerance]
    norm_num
  have hsq : parkTolerance * parkTolerance
      < (newpos.getD 2 0 - zOf p) * (newpos.getD 2 0 - zOf p) := by
    rw [← abs_mul_abs_self (newpos.getD 2 0 - zOf p)]
    exact mul_self_lt_mul_self parkTolerance_nonneg hfar
  have hlong : ¬ moveD2 p.commandedPos newpos < minMoveD2 := by
    have hle : (newpos.getD 2 0 - zOf p) * (newpos.getD 2 0 - zOf p)
        ≤ moveD2 p.commandedPos newpos := sq_le_moveD2 (by omega) hthree
    exact not_lt.mpr (hmin.trans (hsq.le.trans hle))
  cases toolheadMove_heads h with
  | stays hshort _ => exact absurd hshort hlong
  | goes hend _ =>
    rcases hend with rfl | ⟨hshort, -⟩
    · rfl
    · exact absurd hshort hlong

/-! ## Moves keep a camera parked -/

omit [LinearOrder K] in
theorem zOf_congr (hc : q.commandedPos.take 4 = p.commandedPos.take 4) : zOf q = zOf p := by
  have hget : (q.commandedPos.take 4)[2]? = (p.commandedPos.take 4)[2]? := by rw [hc]
  rw [getElem?_take_of_lt (by omega), getElem?_take_of_lt (by omega)] at hget
  rw [zOf, zOf, getD_eq_getElem?_getD, getD_eq_getElem?_getD, hget]

theorem Parked.frame (h : Parked p) (htr : q.transform = p.transform)
    (hc : q.commandedPos.take 4 = p.commandedPos.take 4) : Parked q := by
  have hlen := congrArg List.length hc
  rw [length_take, length_take] at hlen
  have hfour := h.four
  refine ⟨by omega, ?_⟩
  rintro ⟨letter, cam, hcam⟩
  rw [zOf_congr hc]
  exact h.camera ⟨letter, cam, htr.symm.trans hcam⟩

/-- What the tool head makes of a request keeps it parked. -/
theorem Parked.toolheadMove [IsStrictOrderedRing K] (h : Parked p) {tr : Transform K}
    (hreq : request p newpos = some (tr, mpos)) (check : Check K) (speed : K) :
    Parked (GcodeMove.toolheadMove check { p with transform := tr } mpos speed).1 := by
  obtain ⟨htr, hlen, hz⟩ := toolheadMove_z check (p := { p with transform := tr }) mpos speed h.four
  refine ⟨hlen, fun hcam => ?_⟩
  rcases request_z hreq with ⟨hcam', hmpos⟩ | ⟨hno, -⟩
  · rcases hz with hz | hz
    · rw [hz]
      exact h.camera hcam'
    · rw [hz, hmpos, abs_zero]
      exact parkTolerance_nonneg
  · -- the request leaves the kind of the tool
    obtain ⟨letter, cam, hcam⟩ := hcam
    have hsame := request_transform hno hreq
    exact absurd ⟨letter, cam, hsame.symm.trans (htr.symm.trans hcam)⟩ hno

/-- **EVERY MOVE KEEPS A CAMERA PARKED.** -/
theorem lasting_parked [IsStrictOrderedRing K] : Lasting (Parked : Printer K → Prop) where
  frame h htr hc _ := h.frame htr (by rw [hc])
  move check p newpos speed h := by
    rw [moveWithTransform_eq]
    cases hreq : request p newpos with
    | none => exact h
    | some r =>
      obtain ⟨tr, mpos⟩ := r
      refine andThen_invariant (h.toolheadMove hreq check speed) fun q _ hq => ?_
      obtain ⟨heap, last, heq, -, -⟩ := afterMove_spec q
      show Parked (afterMove q)
      rw [heq]
      exact hq.frame rfl rfl

/-- A move of a nozzle, refused or not, leaves the tool. -/
theorem toolMove_nozzle_transform (check : Check K) (letter : RLetter)
    (trig : Trig K) (tool : Nozzle K) (p : Printer K) (newpos : List K) (speed : K) :
    (toolMove check letter (.nozzle trig tool) p newpos speed).1.transform = p.transform := by
  rw [toolMove]
  split
  · rfl
  · rename_i mpos _
    refine andThen_invariant (I := fun q : Printer K => q.transform = p.transform) ?_
      fun q _ hq => hq
    obtain ⟨c, moves, hframe⟩ := toolheadMove_frame check p mpos speed
    rw [hframe]

section Keeps

variable {P : Printer K → Prop} (hP : Lasting P) {check : Check K}
  {p : Printer K} {newpos : List K} {speed : K}

include hP

theorem lasting_of_reset {r : GcodeMove.Result K}
    (h : P (andThen r fun p => (p.resetLastPosition, none)).1) : P r.1 := by
  obtain ⟨q, _ | e⟩ := r
  · exact hP.frame h rfl rfl rfl
  · exact h

/-- A move of the tool head without a tool. -/
theorem lasting_toolheadMove
    (htr : p.transform = .toolhead ∨ ∃ letter, p.transform = .pnp letter none)
    (h : P p) : P (toolheadMove check p newpos speed).1 := by
  have hmove := hP.move check newpos speed h
  rw [moveWithTransform] at hmove
  rcases htr with htr | ⟨letter, htr⟩
  · rw [htr] at hmove
    exact hmove
  · rw [htr] at hmove
    exact lasting_of_reset hP hmove

theorem lasting_toolMove {letter : RLetter} {tool : Tool K}
    (htr : p.transform = .pnp letter (some tool)) (h : P p) :
    P (toolMove check letter tool p newpos speed).1 := by
  have hmove := hP.move check newpos speed h
  rw [moveWithTransform, htr] at hmove
  exact lasting_of_reset hP hmove

/-- A safe move keeps what every move keeps. -/
theorem lasting_safeMove (h : P p) : P (safeMove check p newpos speed).1 := by
  rw [safeMove]
  split
  · rename_i htr
    exact lasting_toolheadMove hP (.inl htr) h
  · rename_i letter htr
    exact lasting_toolheadMove hP (.inr ⟨letter, htr⟩) h
  · rename_i letter tool htr
    rw [toolSafeMove]
    split
    · exact h
    · split
      · rename_i trig tool
        -- the nozzle stays through the stages
        have hstage : ∀ (xs : List K) (q : Printer K),
            P q ∧ q.transform = .pnp letter (some (.nozzle trig tool)) →
            P (toolMove check letter (.nozzle trig tool) q xs speed).1 ∧
            (toolMove check letter (.nozzle trig tool) q xs speed).1.transform
              = .pnp letter (some (.nozzle trig tool)) :=
          fun xs q hq => ⟨lasting_toolMove hP hq.2 hq.1, (toolMove_nozzle_transform ..).trans hq.2⟩
        refine (andThen_invariant (I := fun q : Printer K => P q ∧
          q.transform = .pnp letter (some (.nozzle trig tool)))
          (hstage _ p ⟨h, htr⟩) fun q _ hq => ?_).1
        exact andThen_invariant (hstage _ q hq) fun r _ hr => hstage _ r hr
      · exact lasting_toolMove hP htr h

end Keeps

/-! ## Axes and tools -/

section Tools

variable {m m' : Machine K} {check : Check K}

omit [LinearOrder K] in
/-- The tool, and X, Y, Z and E of the tool head, are what they were. -/
def SameHead (m m' : Machine K) : Prop :=
  m'.printer.transform = m.printer.transform ∧
  m'.printer.commandedPos.take 4 = m.printer.commandedPos.take 4

omit [LinearOrder K] in
theorem sameHead_removeExtraAxis (m : Machine K) (id : AxisId)
    (letter : String) : SameHead m (m.removeExtraAxis id letter).1 := by
  rw [Machine.removeExtraAxis]
  dsimp only
  split
  · exact ⟨rfl, rfl⟩
  · split
    · exact ⟨rfl, rfl⟩
    · rename_i i _ _
      refine ⟨rfl, ?_⟩
      exact take_eraseIdx_eq_take_of_le _ _ _ (Nat.le_add_right 4 i)

omit [LinearOrder K] in
theorem sameHead_registerAxis (hfour : 4 ≤ m.printer.commandedPos.length)
    (id : AxisId) (letter : String) : SameHead m (m.registerAxis id letter).1 := by
  rw [Machine.registerAxis]
  split
  · exact ⟨rfl, rfl⟩
  · split
    · exact ⟨rfl, rfl⟩
    · refine ⟨rfl, ?_⟩
      show (if m.printer.commandedPos.length
          < (if letter ∈ m.posAxes then m.posAxes
              else m.posAxes ++ [letter]).length
        then m.printer.commandedPos ++ [(m.axes id).commandedPos]
        else m.printer.commandedPos).take 4 = _
      generalize (if letter ∈ m.posAxes then m.posAxes
        else m.posAxes ++ [letter]) = posAxes
      split
      · exact take_append_of_le_length hfour
      · rfl

/-- What becomes of a property of the tool and Z when the axes change. -/
theorem Parked.sameHead (h : Parked m.printer) (hsame : SameHead m m') :
    Parked m'.printer := h.frame hsame.1 hsame.2

/-- Go on if the first part leaves the tool head where it is. -/
theorem sameHead_andThen {r : Outcome K} {f : Machine K → Outcome K}
    (h : Parked m.printer) (hr : SameHead m r.1) (hf : ∀ q, Parked q.printer → SameHead q (f q).1) :
    SameHead m (andThen r f).1 := by
  refine andThen_invariant hr fun q _ hq => ?_
  obtain ⟨htr, hc⟩ := hf q (h.sameHead hq)
  exact ⟨htr.trans hq.1, hc.trans hq.2⟩

omit [LinearOrder K] in
theorem SameHead.refl (m : Machine K) : SameHead m m := ⟨rfl, rfl⟩

theorem Parked.unbindGcodeAxis (h : Parked m.printer) (id : AxisId) :
    SameHead m (m.unbindGcodeAxis id).1 := by
  rw [Machine.unbindGcodeAxis]
  split
  · exact SameHead.refl m
  · exact sameHead_andThen h (sameHead_removeExtraAxis m id _) fun q _ => ⟨rfl, rfl⟩

theorem Parked.bindGcodeAxis (h : Parked m.printer) (id : AxisId)
    (letter : String) : SameHead m (m.bindGcodeAxis id letter).1 := by
  rw [Machine.bindGcodeAxis]
  split
  · exact SameHead.refl m
  · refine sameHead_andThen h (h.unbindGcodeAxis id) fun q hq => ?_
    exact sameHead_andThen hq (sameHead_registerAxis hq.four id letter) fun r _ => ⟨rfl, rfl⟩

theorem Parked.rebindR (h : Parked m.printer) (tool : Option (ToolEntry K)) :
    SameHead m (m.rebindR tool).1 := by
  refine sameHead_andThen h (h.unbindGcodeAxis m.boundR) fun q hq => ?_
  exact sameHead_andThen hq (hq.bindGcodeAxis _ _) fun r _ => ⟨rfl, rfl⟩

theorem Parked.commandWithGcodeAxis (h : Parked m.printer) (id : AxisId)
    (gcodeAxis : String) : SameHead m (m.commandWithGcodeAxis id gcodeAxis).1 := by
  rw [Machine.commandWithGcodeAxis]
  split
  · split
    · exact SameHead.refl m
    · exact sameHead_andThen h (sameHead_removeExtraAxis m id _) fun q _ => ⟨rfl, rfl⟩
  · split
    · exact SameHead.refl m
    · exact sameHead_registerAxis h.four id gcodeAxis

variable [IsStrictOrderedRing K]

section Requests

variable (h : Parked m.printer)
include h

/-- **PARKING BRINGS THE TOOL HEAD TO Z = 0**, if a camera has been kept there. -/
theorem Parked.parkZActuator (hdone : m.parkZActuator check = (m', none)) :
    Parked m'.printer ∧ |zOf m'.printer| ≤ parkTolerance := by
  rw [Machine.parkZActuator] at hdone
  split at hdone
  · rename_i hfar
    have hparked : Parked m'.printer := by
      have hmove := lasting_parked.move check (m.getPosition.set 2 0) m.printer.speed h
      rwa [on_ok hdone] at hmove
    refine ⟨hparked, ?_⟩
    obtain ⟨mpos, hwent⟩ := went_of_moveWithTransform (on_ok hdone)
    obtain ⟨tr, hreq, htr⟩ := hwent.asked
    by_cases hcam : HasCamera m.printer
    · exact hparked.camera (request_camera hcam (htr ▸ hreq))
    · -- the way to Z = 0 is long enough to be made
      have hfour : 3 ≤ m.getPosition.length := by
        have hlen : m.getPosition.length = m.printer.commandedPos.length := (position_z hcam).1
        have := h.four
        omega
      have hzero : mpos.getD 2 0 = 0 := by
        rcases request_z hreq with ⟨hcam', -⟩ | ⟨-, hz⟩
        · exact absurd hcam' hcam
        · rw [hz, getD_eq_getElem?_getD, getElem?_set_self hfour, getD_some]
      obtain ⟨check₁, speed, q₁, hmove, hpos, -⟩ := hwent.made
      have hz : zOf q₁ = mpos.getD 2 0 := by
        refine toolheadMove_far (p := { m.printer with transform := m'.printer.transform }) h.four
          ?_ ?_ hmove
        · show parkTolerance < |mpos.getD 2 0 - zOf m.printer|
          rw [hzero, zero_sub, abs_neg, ← (position_z hcam).2]
          exact hfar
        · rw [length_request hreq, length_set]
          exact hfour
      have hz' : zOf m'.printer = 0 := by
        rw [zOf, ← hpos]
        exact hz.trans hzero
      rw [hz', abs_zero]
      exact parkTolerance_nonneg
  · rename_i hnear
    obtain rfl := (Prod.mk.inj hdone).1
    refine ⟨h, ?_⟩
    by_cases hcam : HasCamera m.printer
    · exact h.camera hcam
    · rw [← (position_z hcam).2]
      exact not_lt.mp hnear

theorem Parked.move (newpos : List K) (speed : K) : Parked (m.move check newpos speed).1.printer :=
  lasting_parked.move check newpos speed h

theorem Parked.safeMove (newpos : List K) (speed : K) :
    Parked (m.safeMove check newpos speed).1.printer :=
  lasting_safeMove lasting_parked h

omit [IsStrictOrderedRing K] in
/-- With Z = 0 any tool may come. -/
theorem Parked.setActive (hz : |zOf m.printer| ≤ parkTolerance) (name : Option String) :
    Parked (m.setActive name).printer := by
  obtain ⟨tools, hstore, -⟩ := storeActive_spec m
  rw [Machine.setActive, hstore]
  exact ⟨h.four, fun _ => hz⟩

/-- **A TOOL CHANGE** ends with a machine that is parked, or stops before. -/
theorem Parked.changeTool (name : Option String) : Parked (m.changeTool check name).1.printer := by
  rw [Machine.changeTool]
  generalize name.bind (Dict.get m.tools) = entry
  have hpark : Parked (m.parkZActuator check).1.printer := by
    rw [Machine.parkZActuator]
    split
    · exact h.move _ _
    · exact h
  refine andThen_invariant (I := fun m : Machine K => Parked m.printer) hpark fun m₁ hm₁ h₁ => ?_
  have hsame : SameHead (m₁.rebindZ entry) ((m₁.rebindZ entry).rebindR entry).1 :=
    Parked.rebindR (m := m₁.rebindZ entry) h₁ entry
  refine andThen_invariant (I := fun m : Machine K => Parked m.printer)
    (Parked.sameHead (m := m₁.rebindZ entry) h₁ hsame) fun m₂ hm₂ h₂ => ?_
  rw [hm₂] at hsame
  refine h₂.setActive ?_ name
  rw [zOf_congr hsame.2]
  exact (h.parkZActuator hm₁).2

theorem Parked.selectTool (name : Option String) (wantMove : Bool) :
    Parked (m.selectTool check name wantMove).1.printer := by
  refine andThen_invariant (I := fun m : Machine K => Parked m.printer) (h.changeTool name)
    fun m₁ _ h₁ => ?_
  refine andThen_invariant (I := fun m : Machine K => Parked m.printer) ?_
    fun m₂ _ h₂ => Parked.frame h₂ rfl rfl
  split
  · exact Parked.safeMove h₁ _ _
  · exact h₁

/-- **ONE REQUEST** keeps the machine parked, with or without an error. -/
theorem Parked.handle (r : Request K) : Parked (m.handle check r).1.printer := by
  generalize ho : m.handle check r = o
  cases handled ho with
  | gcode c => exact lasting_parked.handle c h
  | manualStepper n gcodeAxis =>
    exact h.sameHead (h.commandWithGcodeAxis (.manualStepper n) gcodeAxis)
  | same => exact h
  | selectTool _ name wantMove => exact h.selectTool name wantMove
  | move b speed =>
    split
    · exact h.safeMove _ _
    · exact h.move _ _

theorem Parked.step {r : Request K} (hstep : m.step check r = some m') : Parked m'.printer := by
  obtain rfl | rfl := step_cases hstep
  · exact h.handle r
  · exact Parked.frame (h.handle r) rfl rfl

/-! ## Runs -/

end Requests

/-- With a camera a homing of Z leaves the tool head at Z = 0. -/
def Event.Fits (m : Machine K) : Event K → Prop
  | .request _ _ => True
  | .homeZ _ _ z => HasCamera m.printer → |z| ≤ parkTolerance

omit [IsStrictOrderedRing K] in
theorem Parked.homeZ (h : Parked m.printer) {x y z : K}
    (hz : HasCamera m.printer → |z| ≤ parkTolerance)
    (hdone : m.homeZ x y z = (m', none)) : Parked m'.printer := by
  obtain ⟨hp, hhoming, hwrite⟩ := readItem_ok (on_ok hdone)
  rw [writeItem_ok hwrite]
  refine ⟨?_, hz⟩
  show 4 ≤ (x :: y :: z :: m.printer.commandedPos.drop 3).length
  have hfour := h.four
  rw [length_cons, length_cons, length_cons, length_drop]
  omega

theorem Parked.react (h : Parked m.printer) {e : Event K} (hfit : e.Fits m)
    (hreact : m.react e = some m') : Parked m'.printer := by
  cases e with
  | request check r => exact h.step hreact
  | homeZ x y z =>
    rw [Machine.react] at hreact
    split at hreact
    · rename_i m₁ hm₁
      exact some.inj hreact ▸ h.homeZ hfit hm₁
    · cases hreact

/-- Every event of a run fits. -/
def AllParked : Machine K → List (Event K) → Prop
  | _, [] => True
  | m, e :: es => e.Fits m ∧ ∀ m', m.react e = some m' → AllParked m' es

theorem Parked.reactAll {es : List (Event K)} :
    ∀ {m m' : Machine K}, Parked m.printer → AllParked m es →
      m.reactAll es = some m' → Parked m'.printer := by
  induction es with
  | nil =>
    intro m m' h _ hrun
    exact some.inj hrun ▸ h
  | cons e es ih =>
    intro m m' h hfit hrun
    rw [Machine.reactAll, foldlM_cons] at hrun
    obtain ⟨m₁, hreact, hrest⟩ := bind_eq_some_iff.mp hrun
    exact ih (h.react hfit.1 hreact) (hfit.2 m₁ hreact) hrest

/-- **NO TOOL CHANGE LOSES THE Z REFERENCE**: in every run in which no homing with a camera
    leaves the tool head off Z = 0, it is at Z = 0 whenever a tool change rebinds the Z
    steppers, so none of them is shifted. -/
theorem zReference_of_run (letter : RLetter) (pos : Coords K)
    (tools : List (String × ToolEntry K)) (commandedPos : AxisId → K)
    (firstZ fallbackZ : ZStepperId) {es : List (Event K)}
    (hfit : AllParked (Machine.ready letter pos tools commandedPos firstZ fallbackZ) es)
    (hrun : (Machine.ready letter pos tools commandedPos firstZ
      fallbackZ).reactAll es = some m)
    (hpark : m.parkZActuator check = (m', none)) :
    |zOf m'.printer| ≤ parkTolerance ∧
    ∀ z, |zShift m' z| ≤ parkTolerance := by
  have hready : Parked (Machine.ready letter pos tools commandedPos firstZ
      fallbackZ).printer :=
    ⟨Nat.le_succ 4, fun ⟨_, _, hcam⟩ => nomatch hcam⟩
  obtain ⟨-, hz⟩ := (hready.reactAll hfit hrun).parkZActuator hpark
  refine ⟨hz, fun z => ?_⟩
  rw [zShift, abs_mul]
  have hsign : |(m'.zCoeffs z : K)| ≤ 1 := by
    cases m'.zCoeffs z with
    | zero => simp
    | neg => simp
    | pos => simp
  calc |(m'.zCoeffs z : K)| * |zOf m'.printer|
      ≤ 1 * |zOf m'.printer| := mul_le_mul_of_nonneg_right hsign (abs_nonneg _)
    _ = |zOf m'.printer| := one_mul _
    _ ≤ parkTolerance := hz

end Tools

/-! ## A machine with a camera -/

/-- A camera that looks straight down at Z = 0, and the tilted nozzle. -/
def cameraMachine : Machine ℚ :=
  .ready ⟨"R", r_free⟩ ⟨0, 0, 0, 0, 0⟩
    [("C", ⟨.camera ⟨0, 0, 0, 0, 0, 1, by decide, 0, 0⟩, .cameraR 0, none, 1⟩),
      ("N", ⟨tiltedNozzle, .manualStepper 0, some 1, -1⟩)] (fun _ => 0) 0 0

/-- `PNP_TOOL SET=C`. -/
def selectCamera : Event ℚ := .request noCheck (.pnpTool (some "C") false)

/-- Homing without a tool to Z = 5 is made good for by the tool change. -/
theorem zReference_after_homing : ∃ m m',
    cameraMachine.reactAll [.homeZ 0 0 5, selectCamera, .homeZ 0 0 0] = some m ∧
    m.parkZActuator noCheck = (m', none) ∧ zOf m'.printer = 0 ∧
    ∀ z, |zShift m' z| ≤ parkTolerance := by
  obtain ⟨m, hm, herr, hz⟩ : ∃ m,
      cameraMachine.reactAll [.homeZ 0 0 5, selectCamera, .homeZ 0 0 0] = some m ∧
      (m.parkZActuator noCheck).2 = none ∧ zOf (m.parkZActuator noCheck).1.printer = 0 :=
    Result.exists_some_of_any (by decide +kernel)
  refine ⟨m, _, hm, Prod.ext rfl herr, hz,
    (zReference_of_run _ _ _ _ _ _ ?_ hm (Prod.ext rfl herr)).2⟩
  refine ⟨?_, fun _ _ => ⟨trivial, fun _ _ => ⟨fun _ => ?_, fun _ _ => trivial⟩⟩⟩
  · rintro ⟨letter, cam, hcam⟩
    cases hcam
  · rw [abs_zero]
    exact parkTolerance_nonneg

/-- Homing with the camera to Z = 5 is not: the next tool change takes the first
    Z stepper, which is at 5, to be at 0. -/
theorem zReference_lost : ∃ m m',
    cameraMachine.reactAll [selectCamera, .homeZ 0 0 5] = some m ∧
    (m.selectTool noCheck (some "N") false).2 = none ∧
    m.parkZActuator noCheck = (m', none) ∧ zShift m' 0 = 5 ∧
    ¬ |zOf m'.printer| ≤ parkTolerance := by
  obtain ⟨m, hm, hselect, herr, hz⟩ : ∃ m,
      cameraMachine.reactAll [selectCamera, .homeZ 0 0 5] = some m ∧
      (m.selectTool noCheck (some "N") false).2 = none ∧
      (m.parkZActuator noCheck).2 = none ∧ zShift (m.parkZActuator noCheck).1 0 = 5 ∧
      ¬ |zOf (m.parkZActuator noCheck).1.printer| ≤ parkTolerance :=
    Result.exists_some_of_any (by decide +kernel)
  exact ⟨m, _, hm, hselect, Prod.ext rfl herr, hz⟩

end Pnp
