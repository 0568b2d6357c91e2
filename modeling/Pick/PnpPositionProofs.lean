import Pick.PnpAxesRunProofs

/-! # The G-code layer knows the position of the tool

`gcode_move.last_position` is a copy of the position that the manager
reports, and a `G1` that names some axes takes the others from it.  It is
read back after every move of the manager and its tools, after a tool change
and whenever the axes change, but not after `safe_move` without a tool. -/

namespace Pnp

open Attempt GcodeMove ListHeap Option Pnptool

variable {K : Type} [Field K]

/-! ## Reading back -/

/-- The last position is the present one. -/
def Current (p : Printer K) : Prop := p.last = p.positionWithTransform

/-- Moves go through the manager. -/
def Managed (p : Printer K) : Prop := p.transform ≠ .toolhead

/-- A tool is active. -/
def HasTool (p : Printer K) : Prop := ∃ letter tool, p.transform = .pnp letter (some tool)

theorem HasTool.managed {p : Printer K} (h : HasTool p) : Managed p := by
  obtain ⟨letter, tool, htr⟩ := h
  intro heq
  cases htr.symm.trans heq

theorem current_reset (p : Printer K) : Current p.resetLastPosition := deref_alloc_self ..

variable {letter : RLetter} {gcmd : Gcmd K} {r : Request K}

theorem position_of_noTool {p : Printer K} (h : p.transform = .pnp letter none) :
    p.positionWithTransform = p.commandedPos := by
  rw [Printer.positionWithTransform, h]

variable [LinearOrder K] {check : Check K} {p q : Printer K} {newpos : List K}
  {speed : K}

/-- A move of a tool ends with the position read back. -/
theorem toolMove_current {tool : Tool K}
    (hp : HasTool p) (h : toolMove check letter tool p newpos speed = (q, none)) :
    Current q ∧ HasTool q := by
  obtain ⟨letter₀, tool₀, htr₀⟩ := hp
  cases tool with
  | nozzle trig tool =>
    rw [toolMove] at h
    split at h
    · cases (Prod.mk.inj h).2
    · obtain ⟨q₁, hmove, hreset⟩ := andThen_ok h
      obtain rfl := (Prod.mk.inj hreset).1
      exact ⟨current_reset q₁, letter₀, tool₀, (toolheadMove_transform hmove).trans htr₀⟩
  | camera cam =>
    rw [toolMove] at h
    split at h
    · cases (Prod.mk.inj h).2
    · rename_i cam' mpos _
      obtain ⟨q₁, hmove, hreset⟩ := andThen_ok h
      obtain rfl := (Prod.mk.inj hreset).1
      exact ⟨current_reset q₁, letter, .camera cam', toolheadMove_transform hmove⟩

/-- So does a move of the manager. -/
theorem moveWithTransform_current (hp : Managed p)
    (h : moveWithTransform check p newpos speed = (q, none)) : Current q ∧ Managed q := by
  obtain ⟨tr, mpos, c, moves, hreq, -, rfl⟩ := moveWithTransform_ok h
  have hman : tr ≠ .toolhead := by
    cases request_asks hreq with
    | toolhead htr => exact absurd htr hp
    | untooled _ | nozzle _ _ _ | camera _ _ _ => exact nofun
  obtain ⟨heap, last, heq, -, hlast⟩ := afterMove_spec
    { p with transform := tr, commandedPos := c, moves := moves }
  rw [heq]
  rcases hlast with ⟨htr, -⟩ | ⟨-, -, hread⟩
  · exact absurd htr hman
  · exact ⟨hread, hman⟩

/-- And a safe move of a tool. -/
theorem toolSafeMove_current {tool : Tool K} {dest : List (Option K)} (hp : HasTool p)
    (h : toolSafeMove check letter tool p dest speed = (q, none)) : Current q ∧ HasTool q := by
  rw [toolSafeMove] at h
  split at h
  · cases (Prod.mk.inj h).2
  · split at h
    · obtain ⟨q₁, hlift, h⟩ := andThen_ok h
      obtain ⟨q₂, hover, h⟩ := andThen_ok h
      have h₁ := (toolMove_current hp hlift).2
      have h₂ := (toolMove_current h₁ hover).2
      exact toolMove_current h₂ h
    · exact toolMove_current hp h

theorem safeMove_managed (hp : Managed p)
    (h : safeMove check p newpos speed = (q, none)) : Managed q := by
  rw [safeMove] at h
  split at h
  · rename_i htr
    exact absurd htr hp
  · exact fun heq => hp ((toolheadMove_transform h).symm.trans heq)
  · rename_i letter tool htr
    exact (toolSafeMove_current ⟨letter, tool, htr⟩ h).2.managed

/-- **A SAFE MOVE** keeps the last position the present one exactly if there is
    a tool or nothing to move. -/
theorem safeMove_current_iff [IsStrictOrderedRing K] (hp : Managed p)
    (hcur : Current p) (hlen : newpos.length = p.commandedPos.length) (hthree : 3 ≤ newpos.length)
    (h : safeMove check p newpos speed = (q, none)) :
    Current q ↔ HasTool p ∨ Settled p.commandedPos newpos := by
  rw [safeMove] at h
  split at h
  · rename_i htr
    exact absurd htr hp
  · rename_i letter htr
    have hno : ¬ HasTool p := by
      rintro ⟨letter', tool, htool⟩
      cases htr.symm.trans htool
    have hlast : p.last = p.commandedPos := hcur.trans (position_of_noTool htr)
    have hread : Current q ↔ p.commandedPos = q.commandedPos := by
      have hq := position_of_noTool ((toolheadMove_transform h).trans htr)
      obtain ⟨c, moves, hframe⟩ := toolheadMove_frame check p newpos speed
      rw [h] at hframe
      subst hframe
      rw [Current, hq, ← hlast]
      exact Iff.rfl
    refine ⟨fun hcurq => .inr ?_, ?_⟩
    · rw [hread.mp hcurq]
      exact (toolheadMove_ok hlen hthree h).1
    · rintro (htool | hsettled)
      · exact absurd htool hno
      · rw [toolheadMove_of_settled check speed hsettled] at h
        exact (Prod.mk.inj h).1 ▸ hcur
  · rename_i letter tool htr
    have htool : HasTool p := ⟨letter, tool, htr⟩
    exact iff_of_true (toolSafeMove_current htool h).1 (.inl htool)

/-! ## The axes that a G1 does not name -/

section Unnamed

omit [LinearOrder K]

/-- A command does not name the axis at place `i`. -/
def Unnamed (gcmd : Gcmd K) (axes : List (String × Nat)) (i : Nat) : Prop :=
  ∀ axis, (axis, i) ∈ axes → Dict.get gcmd.params axis = none

/-- One axis of `cmd_G1` writes its own coordinate, if it is named. -/
theorem g1Axis_ok {axis : String} {pos : Nat} (h : g1Axis gcmd axis pos p = (q, none)) :
    q = p ∨ Dict.get gcmd.params axis ≠ none ∧
      ∃ v, q = { p with heap := setItem p.heap p.lastPosition pos v } := by
  rw [g1Axis] at h
  split at h
  · exact .inl (Prod.mk.inj h).1.symm
  · rename_i arg harg
    split at h
    · cases (Prod.mk.inj h).2
    · dsimp only at h
      refine .inr ⟨harg ▸ some_ne_none arg, ?_⟩
      generalize (if axis = "E" ∧ p.absoluteExtrude = false then false
        else p.absoluteCoord) = absoluteCoord at h
      split at h
      · obtain ⟨lp, -, h⟩ := readItem_ok h
        exact ⟨_, writeItem_ok h⟩
      · obtain ⟨bp, -, h⟩ := readItem_ok h
        exact ⟨_, writeItem_ok h⟩

/-- **UNNAMED AXES KEEP THEIR COORDINATE** in the target of a G1. -/
theorem g1Axes_ok {axes : List (String × Nat)} :
    ∀ {p q : Printer K}, g1Axes gcmd axes p = (q, none) → ∃ heap, q = { p with heap := heap } ∧
        ∀ i, Unnamed gcmd axes i → q.last[i]? = p.last[i]? := by
  induction axes with
  | nil =>
    intro p q h
    obtain rfl := (Prod.mk.inj h).1
    exact ⟨p.heap, rfl, fun _ _ => rfl⟩
  | cons e axes ih =>
    intro p q h
    obtain ⟨axis, pos⟩ := e
    obtain ⟨p₁, haxis, hrest⟩ := andThen_ok h
    obtain ⟨heap, rfl, hkeep⟩ := ih hrest
    have hunnamed : ∀ i, Unnamed gcmd ((axis, pos) :: axes) i → Unnamed gcmd axes i :=
      fun i hi a ha => hi a (List.mem_cons_of_mem _ ha)
    rcases g1Axis_ok haxis with rfl | ⟨hnamed, v, rfl⟩
    · exact ⟨heap, rfl, fun i hi => hkeep i (hunnamed i hi)⟩
    · refine ⟨heap, rfl, fun i hi => (hkeep i (hunnamed i hi)).trans ?_⟩
      have hpos : pos ≠ i := by
        rintro rfl
        exact hnamed (hi axis List.mem_cons_self)
      exact getElem?_deref_setItem p.heap p.lastPosition v hpos

end Unnamed

/-! ## Where a G1 goes -/

/-- The machine's displacement in X, Y and Z on the way to `newpos` is none at
    all or long enough to be made. -/
def GoesExactly (p : Printer K) (newpos : List K) : Prop :=
  ∀ tr mpos, request p newpos = some (tr, mpos) → MovesExactly p.commandedPos mpos

/-- A move that the tool head makes exactly is read back. -/
theorem position_of_move [IsStrictOrderedRing K] (hc : p.commandedPos.length = p.axes.length)
    (hlen : newpos.length = p.axes.length) (hexact : GoesExactly p newpos)
    (h : moveWithTransform check p newpos speed = (q, none)) :
    q.positionWithTransform = newpos := by
  obtain ⟨tr, mpos, c, moves, hreq, hmove, rfl⟩ := moveWithTransform_ok h
  have hax := length_axes p
  have hmlen : mpos.length = p.axes.length := (length_request hreq).trans hlen
  have hreached := (toolheadMove_ok (p := { p with transform := tr })
    (hmlen.trans hc.symm) (by omega) hmove).2 (hexact tr mpos hreq)
  obtain ⟨heap, last, heq, -, -⟩ := afterMove_spec
    { p with transform := tr, commandedPos := c, moves := moves }
  rw [heq]
  exact positionWithTransform_request hreq rfl rfl hreached

/-- What `cmd_G1` asks for. -/
def g1Goal (gcmd : Gcmd K) (p : Printer K) : List K := (g1Axes gcmd p.axisMap p).1.last

theorem length_g1Goal (gcmd : Gcmd K) (hp : Sized p) : (g1Goal gcmd p).length = p.axes.length := by
  obtain ⟨hsized, hreg⟩ := walk_g1Axes walk_keeps gcmd p.axisMap p hp
  have hlen := hsized.last.2
  rw [length_axes, hreg, ← length_axes] at hlen
  exact hlen

/-- A G1 that is done is a move to its goal. -/
theorem cmdG1_ok (h : cmdG1 check gcmd p = (q, none)) :
    ∃ heap v, moveWithTransform check { p with heap := heap, speed := v }
        (g1Goal gcmd p) v = (q, none) ∧
      ∀ i, Unnamed gcmd p.axisMap i → (g1Goal gcmd p)[i]? = p.last[i]? := by
  obtain ⟨p₁, haxes, h⟩ := andThen_ok h
  obtain ⟨p₂, hspeed, hmove⟩ := andThen_ok h
  have hgoal : g1Goal gcmd p = p₁.last := by rw [g1Goal, haxes]
  obtain ⟨heap, rfl, hkeep⟩ := g1Axes_ok haxes
  obtain ⟨v, rfl⟩ := (g1Speed_again hspeed).1
  refine ⟨heap, v, ?_, ?_⟩
  · rw [hgoal]
    exact hmove
  · rw [hgoal]
    exact hkeep

/-! ## Requests -/

variable {m m' : Machine K}

/-- The request is done without an error. -/
def Machine.complete (check : Check K) (m : Machine K) (r : Request K) : Option (Machine K) :=
  match m.handle check r with
  | (m', none) => some m'
  | (_, some _) => none

/-- G0 and G1, the manager's own commands and its web requests. -/
def Request.IsMotion : Request K → Prop
  | .gcode (.g1 _) => True
  | .gcode _ | .manualStepper _ _ => False
  | .pnpTool _ _ | .pnpGoto _ _ | .jog _ _ _ | .move _ _ _ | .tool _ _ => True

/-- A safe move is asked for with a tool, or there is nothing to move. -/
def Request.Fits (m : Machine K) (r : Request K) : Prop :=
  ∀ target, r.safeTarget m = some target → HasTool m.printer ∨ Settled m.printer.commandedPos target

theorem fits_of_target {target : List K} (b : Prop)
    [Decidable b] (h : r.safeTarget m = if b then some target else none) :
    r.Fits m ↔ (b → HasTool m.printer ∨ Settled m.printer.commandedPos target) := by
  refine ⟨fun hfit hb => hfit target ?_, fun hb target' htarget => ?_⟩
  · rw [h, if_pos hb]
  · rw [h] at htarget
    split at htarget
    · rename_i htrue
      exact some.inj htarget ▸ hb htrue
    · cases htarget

theorem complete_ok : m.complete check r = some m' ↔ m.handle check r = (m', none) := by
  rw [Machine.complete]
  split
  · rename_i m₁ h
    rw [h, some.injEq, Prod.mk.injEq, and_iff_left rfl]
  · rename_i m₁ e h
    rw [h]
    exact ⟨nofun, fun h => nomatch (Prod.mk.inj h).2⟩

omit [LinearOrder K] in
theorem on_ok {f : Printer K → GcodeMove.Result K}
    (h : m.on f = (m', none)) : f m.printer = (m'.printer, none) := by
  rw [Machine.on] at h
  obtain ⟨rfl, herr⟩ := Prod.mk.inj h
  exact Prod.ext rfl herr

/-- A tool change that is done ends with the position read back. -/
theorem selectTool_current {name : Option String} {wantMove : Bool}
    (h : m.selectTool check name wantMove = (m', none)) :
    Current m'.printer ∧ Managed m'.printer := by
  obtain ⟨m₁, hchange, h⟩ := andThen_ok h
  obtain ⟨m₂, hmove, hreset⟩ := andThen_ok h
  obtain rfl := (Prod.mk.inj hreset).1
  have h₁ : Managed m₁.printer := by
    obtain ⟨m₃, -, hchange⟩ := andThen_ok hchange
    obtain ⟨m₄, -, hset⟩ := andThen_ok hchange
    obtain rfl := (Prod.mk.inj hset).1
    exact nofun
  refine ⟨current_reset m₂.printer, ?_⟩
  show Managed m₂.printer
  split at hmove
  · exact safeMove_managed h₁ (on_ok hmove)
  · exact (Prod.mk.inj hmove).1 ▸ h₁

variable [IsStrictOrderedRing K]

/-- A safe move of the manager to a position of the right length. -/
theorem Steady.safeMove_current_iff (h : Steady m) (hp : Managed m.printer)
    (hcur : Current m.printer) (hlen : newpos.length = m.getPosition.length)
    (hmove : m.safeMove check newpos speed = (m', none)) :
    (Current m'.printer ↔ HasTool m.printer ∨ Settled m.printer.commandedPos newpos) ∧
    Managed m'.printer := by
  have hdone := on_ok hmove
  have hlen' : newpos.length = m.printer.axes.length := hlen.trans h.length_getPosition
  have hthree := h.length_axes
  refine ⟨Pnp.safeMove_current_iff hp hcur ?_ (by omega) hdone, safeMove_managed hp hdone⟩
  exact hlen'.trans h.consistent.sized.commanded.symm

/-- A safe move under a condition, and a plain move otherwise. -/
theorem Steady.moveOrSafeMove_current_iff (h : Steady m)
    (hp : Managed m.printer) (hcur : Current m.printer) (b : Prop) [Decidable b]
    (hlen : newpos.length = m.getPosition.length)
    (hmove : (if b then m.safeMove check newpos speed
      else m.move check newpos speed) = (m', none)) :
    (Current m'.printer ↔ (b → HasTool m.printer ∨ Settled m.printer.commandedPos newpos)) ∧
    Managed m'.printer := by
  split at hmove
  · rename_i hb
    obtain ⟨hiff, hman⟩ := h.safeMove_current_iff hp hcur hlen hmove
    exact ⟨hiff.trans (imp_iff_right hb).symm, hman⟩
  · rename_i hb
    obtain ⟨hcur', hman⟩ := moveWithTransform_current hp (on_ok hmove)
    exact ⟨iff_of_true hcur' fun htrue => absurd htrue hb, hman⟩

/-- **ONE REQUEST** keeps the last position present exactly if it makes no safe move without a
    tool. -/
theorem Steady.complete_current_iff (h : Steady m) (hp : Managed m.printer)
    (hcur : Current m.printer) (hr : r.IsMotion) (hdone : m.complete check r = some m') :
    (Current m'.printer ↔ r.Fits m) ∧ Managed m'.printer := by
  -- a request without a safe move reads the position back
  have hplain : r.safeTarget m = none → Current m'.printer ∧ Managed m'.printer →
      (Current m'.printer ↔ r.Fits m) ∧ Managed m'.printer := by
    rintro hnone ⟨hcur', hman⟩
    refine ⟨iff_of_true hcur' fun target htarget => ?_, hman⟩
    rw [hnone] at htarget
    cases htarget
  have hdone := complete_ok.mp hdone
  generalize ho : (m', (none : Option Error)) = o at hdone
  cases handled hdone with
  | gcode c =>
    cases c with
    | g1 gcmd =>
      refine hplain rfl ?_
      obtain ⟨heap, v, hmove, -⟩ := cmdG1_ok (on_ok ho.symm)
      have hman : Managed { m.printer with heap := heap, speed := v } := hp
      exact moveWithTransform_current hman hmove
    | _ => exact absurd hr id
  | manualStepper n gcodeAxis => exact absurd hr id
  | same hsafe =>
    cases ho
    exact hplain (hsafe rfl) ⟨hcur, hp⟩
  | selectTool hsafe name wantMove => exact hplain hsafe (selectTool_current ho.symm)
  | move b speed hlen hsafe =>
    obtain ⟨hiff, hman⟩ := h.moveOrSafeMove_current_iff hp hcur b hlen ho.symm
    exact ⟨hiff.trans (fits_of_target b hsafe).symm, hman⟩

/-! ## Runs -/

/-- Requests that are all done, one after the other. -/
def Machine.completeAll (m : Machine K) (rs : List (Check K × Request K)) : Option (Machine K) :=
  rs.foldlM (fun m r => m.complete r.1 r.2) m

/-- No request of a run makes a safe move without a tool. -/
def AllKnown : Machine K → List (Check K × Request K) → Prop
  | _, [] => True
  | m, r :: rs => r.2.Fits m ∧ ∀ m', m.complete r.1 r.2 = some m' → AllKnown m' rs

omit [LinearOrder K] [IsStrictOrderedRing K] in
/-- No record is restored by these requests. -/
theorem Request.IsMotion.restoresFitting (h : r.IsMotion) : r.RestoresFitting m := by
  rintro c rfl gcmd state rfl
  exact absurd h id

theorem known_of_completeAll {rs : List (Check K × Request K)} :
    ∀ {m m' : Machine K}, Steady m → Managed m.printer → Current m.printer →
      (∀ r ∈ rs, r.2.IsMotion) → AllKnown m rs → m.completeAll rs = some m' →
      Steady m' ∧ Managed m'.printer ∧ Current m'.printer := by
  induction rs with
  | nil =>
    intro m m' h hp hcur _ _ hrun
    exact some.inj hrun ▸ ⟨h, hp, hcur⟩
  | cons r rs ih =>
    intro m m' h hp hcur hmotion hfit hrun
    rw [Machine.completeAll, List.foldlM_cons] at hrun
    obtain ⟨m₁, hdone, hrest⟩ := bind_eq_some_iff.mp hrun
    have hr := hmotion r List.mem_cons_self
    have h₁ : Steady m₁ := by
      have hsteady : Steady (m.handle r.1 r.2).1 := h.handle hr.restoresFitting
      rwa [complete_ok.mp hdone] at hsteady
    obtain ⟨hiff, hman⟩ := h.complete_current_iff hp hcur hr hdone
    exact ih h₁ hman (hiff.mpr hfit.1) (fun r' hr' => hmotion r' (List.mem_cons_of_mem _ hr'))
      (hfit.2 m₁ hdone) hrest

/-- **THE G-CODE LAYER KNOWS THE POSITION**: after every sequence of moves, tool changes and
    jogs in which no safe move to another place is made without a tool, the last position is the
    one the manager reports, and such a safe move is the only request that spoils it. -/
theorem lastPosition_of_run {letter : RLetter} (hletter : isGcodeAxis letter.1)
    (pos : Coords K) (tools : List (String × ToolEntry K))
    (commandedPos : AxisId → K) (firstZ fallbackZ : ZStepperId)
    {rs : List (Check K × Request K)} (hmotion : ∀ r ∈ rs, r.2.IsMotion) {m : Machine K}
    (hfit : AllKnown (Machine.ready letter pos tools commandedPos firstZ fallbackZ) rs)
    (hrun : (Machine.ready letter pos tools commandedPos firstZ
      fallbackZ).completeAll rs = some m) :
    m.printer.last = m.getPosition ∧
    (∀ check gcmd m', m.complete check (.gcode (.g1 gcmd)) = some m' →
      GoesExactly m.printer (g1Goal gcmd m.printer) → ∀ i, Unnamed gcmd m.printer.axisMap i →
        m'.getPosition[i]? = m.getPosition[i]?) ∧
    (∀ check (r : Request K) m', r.IsMotion → m.complete check r = some m' →
      (m'.printer.last = m'.getPosition ↔ r.Fits m)) := by
  obtain ⟨hsteady, hman, hcur⟩ := known_of_completeAll
    (steady_ready hletter pos tools commandedPos firstZ fallbackZ)
    nofun (current_reset _) hmotion hfit hrun
  refine ⟨hcur, ?_, ?_⟩
  · intro check gcmd m' hdone hexact i hi
    obtain ⟨heap, v, hmove, hkeep⟩ := cmdG1_ok (on_ok (complete_ok.mp hdone))
    have hposition : m'.getPosition = g1Goal gcmd m.printer :=
      position_of_move (p := { m.printer with heap := heap, speed := v })
        hsteady.consistent.sized.commanded
        (length_g1Goal gcmd hsteady.consistent.sized) hexact hmove
    rw [hposition, hkeep i hi, hcur]
    rfl
  · intro check r m' hr hdone
    exact (hsteady.complete_current_iff hman hcur hr hdone).1

/-! ## Moves of a machine without a tool -/

/-- `pnp/move` with X = 5, safe or not. -/
def moveX5 (safe : Bool) : Request ℚ := .move ⟨some 5, none, none, none, none⟩ none safe

/-- `pnp/jog` with Z = 1. -/
def jogZ1 : Request ℚ := .jog ⟨0, 0, 1, 0, 0⟩ none true

/-- After a plain move and a jog in Z the last position is known. -/
theorem lastPosition_after_jog : ∃ m,
    originMachine.completeAll [(noCheck, moveX5 false), (noCheck, jogZ1)]
      = some m ∧ m.getPosition = [5, 0, 1, 0, 0] ∧
    m.printer.last = m.getPosition := by
  refine Result.exists_some_and_of_any (by decide +kernel) fun m hm =>
    (lastPosition_of_run (by decide) _ _ _ _ _ ?_ ?_ hm).1
  · intro r hr
    rcases List.mem_pair.mp hr with rfl | rfl
    · exact trivial
    · exact trivial
  · refine ⟨?_, fun m₁ _ => ⟨?_, fun _ _ => trivial⟩⟩
    · intro target htarget
      cases htarget
    · intro target htarget
      rw [jogZ1, Request.safeTarget, if_neg (by simp)] at htarget
      cases htarget

/-- The command `G1 Y1`. -/
def g1Y1 : Gcmd ℚ := ⟨"G1 Y1", traditionalParams "G" (numberArg "1" 1) [("Y", numberArg "1" 1)]⟩

/-- After a safe move without a tool the last position is the one before it, and
    a G1 that names Y only goes back in X. -/
theorem lastPosition_after_safe_move :
    ((originMachine.completeAll [(noCheck, moveX5 true)]).map fun m =>
      (m.printer.last, m.getPosition))
      = some ([0, 0, 0, 0, 0], [5, 0, 0, 0, 0]) ∧
    (originMachine.completeAll [(noCheck, moveX5 true),
      (noCheck, .gcode (.g1 g1Y1))]).map Machine.getPosition = some [0, 1, 0, 0, 0] := by
  decide +kernel

end Pnp
