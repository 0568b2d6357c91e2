import Pick.PnpAxesRunProofs

/-! # What a move request asks for, and what a rejected one leaves

The web requests of the manager name their coordinates `x`, `y`, `z`, `e` and `r`
and write them to the first five places of a position.  The rotation axis is at the
fifth place only until a tool is selected while another axis is registered: a tool
change puts it behind all others.

A camera remembers the height and the rotation of its last request, and reports them
as its position.  It writes them before the tool head has accepted the move. -/

namespace Pnp

open Attempt GcodeMove ListHeap Option Pnptool

variable {K : Type} [Field K] {m : Machine K}

/-! ## Requests for the rotation axis -/

/-- The position that a web request asks `move` for; `none` where writing it raises. -/
def Machine.webTarget (m : Machine K) : Request K → Option (List K)
  | .jog jog _ _ => if m.getPosition.length < 5 then none else some (m.jogTarget jog)
  | .move target _ _ => overlay m.getPosition target.toList
  | _ => none

/-- `pnp/jog` with `r` alone; what is not given is zero. -/
def jogR (r : K) (f : Option K) (safe : Bool) : Request K := .jog ⟨0, 0, 0, 0, r⟩ f safe

/-- `pnp/move` with `r` alone. -/
def moveR (r : K) (f : Option K) (safe : Bool) : Request K :=
  .move ⟨none, none, none, none, some r⟩ f safe

variable (r : K) (f : Option K) (safe : Bool)

/-- Both write the fifth coordinate. -/
theorem webTarget_jogR (h : 5 ≤ m.getPosition.length) : m.webTarget (jogR r f safe)
      = some (m.getPosition.set 4 (m.getPosition.getD 4 0 + r)) := by
  rw [jogR, Machine.webTarget, if_neg (not_lt.mpr h), Machine.jogTarget]
  obtain ⟨x, y, z, e, a, rest, hpos⟩ := exists_of_five_le h
  rw [hpos]
  simp [Coords.toList]

theorem webTarget_moveR (h : 5 ≤ m.getPosition.length) :
    m.webTarget (moveR r f safe) = some (m.getPosition.set 4 r) := by
  rw [moveR, Machine.webTarget]
  obtain ⟨x, y, z, e, a, rest, hpos⟩ := exists_of_five_le h
  rw [hpos]
  rfl

/-- A shorter position has no place for the fifth coordinate. -/
theorem webTarget_short (h : m.getPosition.length < 5) :
    m.webTarget (jogR r f safe) = none ∧ m.webTarget (moveR r f safe) = none := by
  refine ⟨if_pos h, ?_⟩
  rw [moveR, Machine.webTarget]
  match m.getPosition, h with
  | [], _ => rfl
  | [_], _ => rfl
  | [_, _], _ => rfl
  | [_, _, _], _ => rfl
  | [_, _, _, _], _ => rfl

/-- The request asks for a position that differs from the current one at most in the coordinate
    `r_index()`, and there has the value that `value` makes of the current one. -/
def Machine.Turns (m : Machine K) (request : Request K) (value : K → K) : Prop :=
  ∃ target i c, m.webTarget request = some target ∧ m.rIndex = some i ∧
    m.getPosition[i]? = some c ∧ target = m.getPosition.set i (value c)

omit [Field K] in
/-- Writing at two places has the same effect only if neither has one. -/
theorem set_eq_set_iff {l : List K} {i j : Nat} {a b : K} (hi : i < l.length)
    (hj : j < l.length) (hne : i ≠ j) :
    l.set i a = l.set j b ↔ l[i]? = some a ∧ l[j]? = some b := by
  constructor
  · intro h
    constructor
    · rw [← List.getElem?_set_ne hne.symm, ← h, List.getElem?_set_self hi]
    · rw [← List.getElem?_set_ne hne, h, List.getElem?_set_self hj]
  · rintro ⟨ha, hb⟩
    rw [set_of_getElem? ha, set_of_getElem? hb]

/-- A request that writes the fifth coordinate turns the rotation axis if it is there, or
    nothing changes. -/
theorem turns_iff_of_target {request : Request K} {value : K → K} (hlen : 5 ≤ m.getPosition.length)
    (htarget : m.webTarget request
      = some (m.getPosition.set 4 (value (m.getPosition.getD 4 0)))) :
    m.Turns request value ↔ ∃ i, m.rIndex = some i ∧ i < m.getPosition.length ∧
      (i = 4 ∨ m.getPosition[4]? = some (value (m.getPosition.getD 4 0)) ∧
        m.getPosition[i]? = some (value (m.getPosition.getD i 0))) := by
  have hvalue : ∀ {i : Nat} {c : K}, m.getPosition[i]? = some c → m.getPosition.getD i 0 = c := by
    intro i c hc
    rw [List.getD_eq_getElem?_getD, hc, getD_some]
  constructor
  · rintro ⟨target, i, c, htarget', hi, hc, rfl⟩
    have hlt : i < m.getPosition.length := (List.getElem?_eq_some_iff.mp hc).1
    refine ⟨i, hi, hlt, ?_⟩
    rw [htarget, some_inj] at htarget'
    by_cases h4 : i = 4
    · exact .inl h4
    · rw [set_eq_set_iff (by omega) hlt (Ne.symm h4)] at htarget'
      rw [hvalue hc]
      exact .inr htarget'
  · rintro ⟨i, hi, hlt, hplace⟩
    have hc : m.getPosition[i]? = some (m.getPosition.getD i 0) := by
      rw [List.getD_eq_getElem _ _ hlt, List.getElem?_eq_getElem hlt]
    refine ⟨_, i, m.getPosition.getD i 0, htarget, hi, hc, ?_⟩
    rcases hplace with rfl | ⟨hfifth, hr⟩
    · rfl
    · rw [set_of_getElem? hfifth, set_of_getElem? hr]

section Requests

variable [LinearOrder K] {check : Check K}

/-- X and Y are not asked for, so both requests go straight to `move`. -/
theorem handle_jogR : m.handle check (jogR r f safe) =
      match m.webTarget (jogR r f safe) with
      | none => (m, some .internal)
      | some target => m.move check target (m.webSpeed f) := by
  show m.webhooksJog check ⟨0, 0, 0, 0, r⟩ f safe = _
  rw [Machine.webhooksJog, jogR, Machine.webTarget]
  split
  · rfl
  · rw [if_neg fun h => h.2 ⟨rfl, rfl⟩]

theorem handle_moveR : m.handle check (moveR r f safe) =
      match m.webTarget (moveR r f safe) with
      | none => (m, some .internal)
      | some target => m.move check target (m.webSpeed f) := by
  show m.webhooksMove check ⟨none, none, none, none, some r⟩ f safe = _
  rw [Machine.webhooksMove, moveR, Machine.webTarget]
  cases overlay m.getPosition
      (Coords.toList (⟨none, none, none, none, some r⟩ : Coords (Option K))) with
  | none => rfl
  | some target =>
    dsimp only
    rw [if_neg fun h => h.2 ⟨rfl, rfl⟩]

/-- **WEB REQUESTS TURN THE AXIS AT THE FIFTH PLACE**: they change the coordinate `r_index()`
    alone, to what was asked for, exactly if that is the fifth one or there is nothing to
    change. -/
theorem webRequest_turns_iff (m : Machine K) (r : K) (f : Option K) (safe : Bool) :
    (∀ check : Check K, ∀ request ∈ [jogR r f safe, moveR r f safe],
      m.handle check request =
        match m.webTarget request with
        | none => (m, some .internal)
        | some target => m.move check target (m.webSpeed f)) ∧
      (m.Turns (jogR r f safe) (· + r) ↔ 5 ≤ m.getPosition.length ∧
        ∃ i, m.rIndex = some i ∧ i < m.getPosition.length ∧ (i = 4 ∨ r = 0)) ∧
      (m.Turns (moveR r f safe) (fun _ => r) ↔ 5 ≤ m.getPosition.length ∧
        ∃ i, m.rIndex = some i ∧ i < m.getPosition.length ∧
          (i = 4 ∨ m.getPosition[4]? = some r ∧ m.getPosition[i]? = some r)) := by
  refine ⟨?_, ?_, ?_⟩
  · intro check request hrequest
    rcases List.mem_cons.mp hrequest with rfl | hrequest
    · exact handle_jogR r f safe
    · rw [List.mem_singleton.mp hrequest]
      exact handle_moveR r f safe
  · rcases lt_or_ge m.getPosition.length 5 with hlt | hlen
    · refine ⟨?_, fun h => absurd h.1 (by omega)⟩
      rintro ⟨target, i, c, htarget, -⟩
      rw [(webTarget_short r f safe hlt).1] at htarget
      cases htarget
    · have hself : ∀ {i : Nat}, i < m.getPosition.length →
          (m.getPosition[i]? = some (m.getPosition.getD i 0 + r) ↔ r = 0) := by
        intro i hi
        rw [List.getD_eq_getElem _ _ hi, List.getElem?_eq_getElem hi, some_inj, left_eq_add]
      rw [turns_iff_of_target hlen (webTarget_jogR r f safe hlen), hself hlen]
      constructor
      · rintro ⟨i, hi, hlt, hplace⟩
        exact ⟨hlen, i, hi, hlt, hplace.imp_right And.left⟩
      · rintro ⟨-, i, hi, hlt, hplace⟩
        exact ⟨i, hi, hlt, hplace.imp_right fun hr => ⟨hr, (hself hlt).mpr hr⟩⟩
  · rcases lt_or_ge m.getPosition.length 5 with hlt | hlen
    · refine ⟨?_, fun h => absurd h.1 (by omega)⟩
      rintro ⟨target, i, c, htarget, -⟩
      rw [(webTarget_short r f safe hlt).2] at htarget
      cases htarget
    · rw [turns_iff_of_target hlen (webTarget_moveR r f safe hlen)]
      exact (and_iff_right hlen).symm

end Requests

/-- An axis `A` is registered, and a tool change without a tool puts the rotation axis behind it. -/
def registerAndRebind : List (Check ℚ × Request ℚ) :=
  [(noCheck, .manualStepper 0 "A"), (noCheck, .pnpTool (some "NONE") false)]

/-- Then a jog of the rotation axis by one asks for a move of the axis `A`. -/
theorem jog_turns_other_axis : ∃ m, originMachine.run registerAndRebind = some m ∧
    m.rIndex = some 5 ∧ m.getPosition = [0, 0, 0, 0, 0, 0] ∧
    m.webTarget (jogR 1 none true) = some [0, 0, 0, 0, 1, 0] ∧
    ¬ m.Turns (jogR 1 none true) (· + 1) := by
  obtain ⟨m, hm, hindex, hpos, htarget⟩ : ∃ m,
      originMachine.run registerAndRebind = some m ∧ m.rIndex = some 5 ∧
      m.getPosition = [0, 0, 0, 0, 0, 0] ∧
      m.webTarget (jogR 1 none true) = some [0, 0, 0, 0, 1, 0] :=
    Result.exists_some_of_any (by decide +kernel)
  refine ⟨m, hm, hindex, hpos, htarget, ?_⟩
  rintro ⟨target, i, c, htarget', hi, hc, rfl⟩
  rw [hindex, some_inj] at hi
  subst hi
  rw [hpos] at hc htarget'
  rw [htarget] at htarget'
  injection hc with hc
  subst hc
  exact absurd htarget' (by decide)

/-! ## Rejected moves -/

section Rejected

variable [LinearOrder K] {check : Check K} {p q : Printer K} {msg : String}
  {newpos : List K} {speed : K}

/-- What is objected to in a move is found before anything is changed. -/
theorem toolheadMove_rejected
    (h : toolheadMove check p newpos speed = (q, some (.command msg))) : q = p := by
  cases toolheadMove_heads h with
  | refused e => rfl

omit [LinearOrder K] in
theorem andThen_rejected {r : GcodeMove.Result K} {f : Printer K → Printer K}
    (h : (andThen r fun p => (f p, none)) = (q, some (.command msg))) :
    r = (q, some (.command msg)) := by
  obtain ⟨p, _ | e⟩ := r
  · exact nomatch congrArg Prod.snd h
  · exact h

/-- The request has been made: a camera keeps what it was about to remember. -/
theorem moveWithTransform_rejected
    (h : moveWithTransform check p newpos speed = (q, some (.command msg))) :
    ∃ tr mpos, Asks p newpos tr mpos ∧ q = { p with transform := tr } := by
  rw [moveWithTransform_eq] at h
  split at h
  · exact nomatch congrArg Prod.snd h
  · rename_i tr mpos hreq
    exact ⟨tr, mpos, request_asks hreq, toolheadMove_rejected (andThen_rejected h)⟩

omit [LinearOrder K] in
/-- A camera with another height or rotation reports another position. -/
theorem getPosition_eq_iff {cam : Camera K} {i : Nat} {z rot : K} {mpos : List K}
    (hi : 3 ≤ i) (hlen : 3 ≤ mpos.length) :
    Camera.getPosition { cam with zPlane := z, rot := rot } (some i) mpos
        = cam.getPosition (some i) mpos ↔ z = cam.zPlane ∧ rot = cam.rot := by
  constructor
  · intro h
    -- the third coordinate is the height, and the one of the rotation axis the rotation
    have hview : ∀ cam : Camera K, (cam.getPosition (some i) mpos)[2]? = some cam.zPlane ∧
        (cam.getPosition (some i) mpos)[i]? = some cam.rot := by
      intro cam
      rw [Camera.getPosition, Camera.machineToGcode]
      constructor
      · rw [List.getElem?_set_ne (by omega), List.getElem?_append_left (by simp; omega),
          List.getElem?_set_self (by simp; omega)]
      · rw [List.getElem?_set_self]
        simp
        omega
    obtain ⟨hz, hrot⟩ := hview { cam with zPlane := z, rot := rot }
    rw [h, (hview cam).1] at hz
    rw [h, (hview cam).2] at hrot
    exact ⟨(some.inj hz).symm, (some.inj hrot).symm⟩
  · rintro ⟨rfl, rfl⟩
    rfl

/-- The height and the rotation that are asked for are those the camera has. -/
def Machine.KeepsView (m : Machine K) (newpos : List K) : Prop :=
  ∀ letter cam, m.printer.transform = .pnp letter (some (.camera cam)) →
    newpos.getD 2 0 = cam.zPlane ∧ ∀ i, m.printer.rIndex letter = some i → newpos[i]? = some cam.rot

/-- **A REJECTED MOVE** leaves the position as it was, unless the active tool is a camera
    that was asked for another height or another rotation. -/
theorem rejected_move_keeps_position_iff {m' : Machine K} {newpos : List K} {speed : K}
    (hlen : 3 ≤ m.printer.commandedPos.length)
    (h : m.move check newpos speed = (m', some (.command msg))) :
    m'.getPosition = m.getPosition ↔ m.KeepsView newpos := by
  obtain ⟨hm', hmove⟩ := Prod.mk.inj h
  have hprinter : m'.printer = (moveWithTransform check m.printer newpos speed).1 := by rw [← hm']
  have hmoved : moveWithTransform check m.printer newpos speed
      = (m'.printer, some (.command msg)) := Prod.ext hprinter.symm hmove
  obtain ⟨tr, mpos, hasks, hq⟩ := moveWithTransform_rejected hmoved
  cases hasks with
  | toolhead ht | untooled ht | nozzle ht _ _ =>
    -- the printer is the same, and nothing is asked of a camera
    refine iff_of_true ?_ fun letter cam hcam => nomatch ht.symm.trans hcam
    rw [Machine.getPosition, hq, ← ht]
    rfl
  | @camera letter cam cam' i _ ht hi hm =>
    obtain ⟨_, rot, ⟨⟩, hrot, rfl, -⟩ := cam.request_some hm
    have hpos : m.getPosition = cam.getPosition (some i) m.printer.commandedPos := by
      rw [Machine.getPosition, Printer.positionWithTransform, ht]
      dsimp only
      rw [hi]
    have hpos' : m'.getPosition = Camera.getPosition
        { cam with zPlane := newpos.getD 2 0, rot := rot } (some i)
        m.printer.commandedPos := by
      rw [Machine.getPosition, hq, ← hi]
      rfl
    rw [hpos, hpos', getPosition_eq_iff (le_rIndex _ hi) hlen]
    constructor
    · rintro ⟨hz, rfl⟩ letter' cam' ht'
      rw [ht] at ht'
      cases ht'
      refine ⟨hz, fun j hj => ?_⟩
      rw [hi, some_inj] at hj
      rw [← hj, hrot]
    · intro hkeep
      obtain ⟨hz, hr⟩ := hkeep letter cam ht
      have hrot' := hr i hi
      rw [hrot, some_inj] at hrot'
      exact ⟨hz, hrot'⟩

end Rejected

/-- A ready machine at the origin, with a camera that looks straight down. -/
def originCamera : Machine ℚ :=
  .ready ⟨"R", r_free⟩ ⟨0, 0, 0, 0, 0⟩
    [("TOP", ⟨.camera ⟨0, 0, 0, 0, 0, 1, one_ne_zero, 0, 0⟩, .cameraR 0, none, 1⟩)]
    (fun _ => 0) 0 0

/-- A run that selects the top camera. -/
def selectTop : List (Check ℚ × Request ℚ) := [(noCheck, .pnpTool (some "TOP") false)]

/-- X ends at 300. -/
def endsAt300 : Check ℚ := fun _ endPos _ =>
  if 300 < endPos.getD 0 0 then some "Move out of range: 400.000 0.000 0.000 [0.000]" else none

/-- A move beyond the end of X that asks for the height the camera has. -/
theorem rejected_move_keeps_position_level : ∃ m m' msg,
    originCamera.run selectTop = some m ∧
    m.move endsAt300 [400, 0, 0, 0, 0] 25 = (m', some (.command msg)) ∧
    m.KeepsView [400, 0, 0, 0, 0] ∧ m'.getPosition = m.getPosition := by
  obtain ⟨m, hm, hlen, herror, hpos⟩ : ∃ m, originCamera.run selectTop = some m ∧
      m.printer.commandedPos.length = 5 ∧
      (m.move endsAt300 [400, 0, 0, 0, 0] 25).2 =
        some (.command "Move out of range: 400.000 0.000 0.000 [0.000]") ∧
      (m.move endsAt300 [400, 0, 0, 0, 0] 25).1.getPosition = m.getPosition :=
    Result.exists_some_of_any (by decide +kernel)
  have hmove : m.move endsAt300 [400, 0, 0, 0, 0] 25 = (_, some (.command _)) := Prod.ext rfl herror
  exact ⟨m, _, _, hm, hmove, (rejected_move_keeps_position_iff (by omega) hmove).mp hpos, hpos⟩

/-- With another height the camera reports it, though the machine has not moved. -/
theorem rejected_move_changes_position : ∃ m m' msg,
    originCamera.run selectTop = some m ∧
    m.move endsAt300 [400, 0, 5, 0, 0] 25 = (m', some (.command msg)) ∧
    m.getPosition = [0, 0, 0, 0, 0] ∧ m'.getPosition = [0, 0, 5, 0, 0] ∧
    m'.getPosition ≠ m.getPosition := by
  obtain ⟨m, hm, herror, hpos, hpos'⟩ : ∃ m, originCamera.run selectTop = some m ∧
      (m.move endsAt300 [400, 0, 5, 0, 0] 25).2 =
        some (.command "Move out of range: 400.000 0.000 0.000 [0.000]") ∧
      m.getPosition = [0, 0, 0, 0, 0] ∧
      (m.move endsAt300 [400, 0, 5, 0, 0] 25).1.getPosition = [0, 0, 5, 0, 0] :=
    Result.exists_some_of_any (by decide +kernel)
  refine ⟨m, _, _, hm, Prod.ext rfl herror, hpos, hpos', ?_⟩
  rw [hpos, hpos']
  decide

end Pnp
