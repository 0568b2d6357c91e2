import Pick.PnpSafeMoveProofs

/-! # Safe moves lift first

What a safe move asks the tool head for is known before it starts: with a
nozzle the position above the present one, the one above the target and the
target, without a tool the target.  In tool space a nozzle changes X and Y at
Z = 0 only.  Without a tool X, Y and Z change together.

The tool head makes these moves one after the other, but for those that
lead nowhere. -/

namespace Pnp

open GcodeMove List ListHeap Option Pnptool

variable {K : Type} [Field K]

/-! ## Paths -/

/-- The moves from `start` to one target after the other. -/
def legs (start : List K) : List (List K) → List (List K × List K)
  | [] => []
  | target :: targets => (start, target) :: legs target targets

/-- A machine position in the coordinates of the active tool. -/
def toolSpace (p : Printer K) (mpos : List K) : List K :=
  { p with commandedPos := mpos }.positionWithTransform

/-- If X or Y change, Z is zero at both ends. -/
def Level (s e : List K) : Prop := s.take 2 ≠ e.take 2 → s[2]? = some 0 ∧ e[2]? = some 0

/-- All moves that change X or Y in tool space are made at Z = 0. -/
def LiftsFirst (p : Printer K) (moves : List (List K × List K)) : Prop :=
  ∀ move ∈ moves, Level (toolSpace p move.1) (toolSpace p move.2)

/-- The machine positions that `move`, or `safe_move`, asks for in turn. -/
def targetsOf (safe : Bool) (p : Printer K) (newpos : List K) : Option (List (List K)) :=
  let positions :=
    match safe, p.transform with
    | true, .pnp _ (some (.nozzle _ _)) => [p.positionWithTransform.set 2 0, newpos.set 2 0, newpos]
    | _, _ => [newpos]
  positions.mapM fun pos => (request p pos).map Prod.snd

/-- The active tool is a camera. -/
def HasCamera (p : Printer K) : Prop := ∃ letter cam, p.transform = .pnp letter (some (.camera cam))

variable {p q : Printer K} {newpos : List K}

theorem level_of_take {s e : List K} (h : s.take 2 = e.take 2) : Level s e :=
  fun hne => absurd h hne

/-- Moves that lead nowhere do not matter. -/
theorem liftsFirst_filter [DecidableEq K] (moves : List (List K × List K)) :
    LiftsFirst p (moves.filter fun move => move.1 ≠ move.2) ↔ LiftsFirst p moves := by
  refine ⟨fun h move hmem => ?_, fun h move hmem => ?_⟩
  · by_cases heq : move.1 = move.2
    · rw [heq]
      exact level_of_take rfl
    · exact h move (mem_filter.mpr ⟨hmem, decide_eq_true heq⟩)
  · exact h move (mem_filter.mp hmem).1

variable {mpos : List K}

/-- Without a camera a request does not touch the tool. -/
theorem request_transform (hcam : ¬ HasCamera p) {tr : Transform K}
    (h : request p newpos = some (tr, mpos)) : tr = p.transform := by
  cases request_asks h with
  | toolhead htr | untooled htr | nozzle htr _ _ => exact htr.symm
  | camera htr _ _ => exact absurd ⟨_, _, htr⟩ hcam

/-- The target in tool space of what is asked for is the target. -/
theorem toolSpace_of_request (hcam : ¬ HasCamera p)
    (h : (request p newpos).map Prod.snd = some mpos) : toolSpace p mpos = newpos := by
  obtain ⟨⟨tr, m⟩, hreq, rfl⟩ := map_eq_some_iff.mp h
  exact positionWithTransform_request hreq (request_transform hcam hreq).symm rfl rfl

/-! ## What is asked for -/

/-- The target is reached above the table: with a nozzle, without a change of X
    and Y, or from Z = 0 to Z = 0. -/
def Lifted (p : Printer K) (newpos : List K) : Prop :=
  HasNozzle p ∨ newpos.take 2 = p.positionWithTransform.take 2 ∨
    (p.positionWithTransform[2]? = some 0 ∧ newpos[2]? = some 0)

variable {safe : Bool} {targets : List (List K)}

/-- One move straight to the target. -/
theorem targetsOf_straight (hno : safe = true → ¬ HasNozzle p) :
    targetsOf safe p newpos = ((request p newpos).map Prod.snd).map fun mpos => [mpos] := by
  have hone : targetsOf safe p newpos = [newpos].mapM fun pos => (request p pos).map Prod.snd := by
    rw [targetsOf]
    intro letter trig tool hsafe htr
    exact hno hsafe ⟨letter, trig, tool, htr⟩
  rw [hone, mapM_cons, mapM_nil]
  cases (request p newpos).map Prod.snd with
  | none => rfl
  | some mpos => rfl

/-- Three moves of a nozzle. -/
theorem targetsOf_nozzle (hnozzle : HasNozzle p) :
    targetsOf true p newpos = some targets ↔ ∃ m₁ m₂ m₃,
      targets = [m₁, m₂, m₃] ∧
      (request p (p.positionWithTransform.set 2 0)).map Prod.snd = some m₁ ∧
      (request p (newpos.set 2 0)).map Prod.snd = some m₂ ∧
      (request p newpos).map Prod.snd = some m₃ := by
  obtain ⟨letter, trig, tool, htr⟩ := hnozzle
  have hthree : targetsOf true p newpos
      = [p.positionWithTransform.set 2 0, newpos.set 2 0, newpos].mapM
          fun pos => (request p pos).map Prod.snd := by
    unfold targetsOf
    rw [htr]
  rw [hthree]
  refine ⟨fun h => ?_, ?_⟩
  · simp only [mapM_cons, mapM_nil, Option.bind_eq_bind,
      Option.pure_def, Option.bind_some, Option.bind_eq_some_iff,
      Option.some.injEq] at h
    obtain ⟨m₁, h₁, -, ⟨m₂, h₂, -, ⟨m₃, h₃, rfl⟩, rfl⟩, htargets⟩ := h
    exact ⟨m₁, m₂, m₃, htargets.symm, h₁, h₂, h₃⟩
  · rintro ⟨m₁, m₂, m₃, rfl, h₁, h₂, h₃⟩
    simp only [mapM_cons, mapM_nil, h₁, h₂, h₃]
    rfl

/-- **A NOZZLE LIFTS FIRST**, whatever the target. -/
theorem liftsFirst_nozzle (hnozzle : HasNozzle p)
    (hcurr : 3 ≤ p.positionWithTransform.length) (hlen : 3 ≤ newpos.length)
    (h : targetsOf true p newpos = some targets) : LiftsFirst p (legs p.commandedPos targets) := by
  have hcam : ¬ HasCamera p := by
    obtain ⟨letter, trig, tool, htr⟩ := hnozzle
    rintro ⟨letter', cam, hcam⟩
    cases htr.symm.trans hcam
  obtain ⟨m₁, m₂, m₃, rfl, h₁, h₂, h₃⟩ := (targetsOf_nozzle hnozzle).mp h
  intro move hmem
  simp only [legs, mem_cons, not_mem_nil, or_false] at hmem
  have hxy : ∀ xs : List K, (xs.set 2 0).take 2 = xs.take 2 :=
    fun xs => take_set_of_le (Nat.le_refl 2)
  rcases hmem with rfl | rfl | rfl
  · rw [toolSpace_of_request hcam h₁]
    exact level_of_take (hxy p.positionWithTransform).symm
  · rw [toolSpace_of_request hcam h₁, toolSpace_of_request hcam h₂]
    exact fun _ => ⟨getElem?_set_self hcurr, getElem?_set_self hlen⟩
  · rw [toolSpace_of_request hcam h₂, toolSpace_of_request hcam h₃]
    exact level_of_take (hxy newpos)

/-- **WHAT A MOVE ASKS FOR** lifts first exactly if the target is reached above the table. -/
theorem liftsFirst_iff (hcam : ¬ HasCamera p)
    (hcurr : 3 ≤ p.positionWithTransform.length) (hlen : 3 ≤ newpos.length)
    (hsafe : safe = true ∨ newpos.take 2 = p.positionWithTransform.take 2)
    (h : targetsOf safe p newpos = some targets) :
    LiftsFirst p (legs p.commandedPos targets) ↔ Lifted p newpos := by
  by_cases hthree : safe = true ∧ HasNozzle p
  · obtain ⟨rfl, hnozzle⟩ := hthree
    exact iff_of_true (liftsFirst_nozzle hnozzle hcurr hlen h) (.inl hnozzle)
  · rw [targetsOf_straight fun hs hnozzle => hthree ⟨hs, hnozzle⟩] at h
    obtain ⟨mpos, hreq, rfl⟩ := map_eq_some_iff.mp h
    have hone : LiftsFirst p (legs p.commandedPos [mpos]) ↔
        Level p.positionWithTransform newpos := by
      refine forall_mem_singleton.trans ?_
      rw [toolSpace_of_request hcam hreq]
      rfl
    rw [hone]
    refine ⟨fun hlevel => ?_, ?_⟩
    · by_cases hxy : newpos.take 2 = p.positionWithTransform.take 2
      · exact .inr (.inl hxy)
      · exact .inr (.inr (hlevel (Ne.symm hxy)))
    · rintro (hnozzle | hxy | hz)
      · exact level_of_take (hsafe.resolve_left fun hs => hthree ⟨hs, hnozzle⟩).symm
      · exact level_of_take hxy.symm
      · exact fun _ => hz

/-! ## What is made of it -/

variable [LinearOrder K] {check : Check K} {speed : K}

/-- From `p` to `q` the tool head has gone through `targets`, and has left out
    moves that lead nowhere. -/
structure Followed (p : Printer K) (targets : List (List K)) (q : Printer K) : Prop where
  ends : q.commandedPos = targets.getLastD p.commandedPos
  moves : q.moves = p.moves ++ (legs p.commandedPos targets).filter fun move => move.1 ≠ move.2

theorem Followed.cons {p₁ : Printer K} {target : List K} (h₁ : Followed p [target] p₁)
    (h : Followed p₁ targets q) : Followed p (target :: targets) q := by
  have hp₁ : p₁.commandedPos = target := h₁.ends
  refine ⟨?_, ?_⟩
  · rw [h.ends, hp₁, getLastD_cons]
  · rw [h.moves, h₁.moves, hp₁, append_assoc, ← filter_append]
    rfl

variable [IsStrictOrderedRing K]

/-- **ONE MOVE OF THE TOOL HEAD** that it can make exactly. -/
theorem followed_of_toolheadMove
    (hlen : newpos.length = p.commandedPos.length) (hthree : 3 ≤ newpos.length)
    (hexact : MovesExactly p.commandedPos newpos)
    (h : toolheadMove check p newpos speed = (q, none)) : Followed p [newpos] q := by
  have hends := (toolheadMove_ok hlen hthree h).2 hexact
  refine ⟨hends, ?_⟩
  by_cases hsame : p.commandedPos = newpos
  · -- there is nothing to do
    rw [toolheadMove_of_settled check speed (hsame ▸ settled_self _)] at h
    rw [← (Prod.mk.inj h).1, legs, legs, filter_singleton]
    simp [hsame]
  · have hmoves : q.moves = p.moves ++ [(p.commandedPos, q.commandedPos)] := by
      cases toolheadMove_heads h with
      | stays _ _ => exact absurd hends hsame
      | goes _ _ => rfl
    rw [hmoves, hends, legs, legs, filter_singleton]
    simp [hsame]

theorem Went.followed (h : Went p newpos mpos q)
    (hc : p.commandedPos.length = p.axes.length) (hlen : newpos.length = p.axes.length)
    (hexact : MovesExactly p.commandedPos mpos) : Followed p [mpos] q := by
  obtain ⟨tr, hreq, -⟩ := h.asked
  obtain ⟨check, speed, q₁, hmove, hpos, hmoves⟩ := h.made
  have hax := length_axes p
  have hmpos : mpos.length = p.axes.length := (length_request hreq).trans hlen
  have hfollowed : Followed { p with transform := q.transform } [mpos] q₁ :=
    followed_of_toolheadMove (hmpos.trans hc.symm) (by omega) hexact hmove
  refine ⟨?_, ?_⟩
  · rw [← hpos]
    exact hfollowed.ends
  · rw [← hmoves]
    exact hfollowed.moves

/-- The three moves of a nozzle. -/
theorem Hopped.followed {p₁ p₂ : Printer K} {m₁ m₂ m₃ : List K}
    (h : Hopped p newpos p₁ p₂ q m₁ m₂ m₃) (hc : p.commandedPos.length = p.axes.length)
    (hlen : newpos.length = p.axes.length)
    (hexact : (p.commandedPos :: [m₁, m₂, m₃]).IsChain MovesExactly) :
    Followed p [m₁, m₂, m₃] q := by
  simp only [isChain_cons_cons] at hexact
  obtain ⟨hexact₁, hexact₂, hexact₃, -⟩ := hexact
  have hcurr := length_positionWithTransform hc
  have hax₁ : p₁.axes.length = p.axes.length := by rw [length_axes, length_axes, h.up.axes]
  have hax₂ : p₂.axes.length = p.axes.length := by
    rw [length_axes, length_axes, h.across.axes, h.up.axes]
  -- every stage starts where the one before has led
  have hlength : ∀ {p₀ : Printer K} {xs mpos : List K} {q₀ : Printer K},
      Went p₀ xs mpos q₀ → mpos.length = xs.length := by
    intro p₀ xs mpos q₀ hwent
    obtain ⟨tr, hreq, -⟩ := hwent.asked
    exact length_request hreq
  have h₁ : Followed p [m₁] p₁ := h.up.followed hc (length_set.trans hcurr) hexact₁
  have hp₁ : p₁.commandedPos = m₁ := h₁.ends
  have h₂ : Followed p₁ [m₂] p₂ := by
    refine h.across.followed ?_ ?_ (hp₁ ▸ hexact₂)
    · rw [hp₁, hlength h.up, length_set, hcurr, hax₁]
    · rw [length_set, hlen, hax₁]
  have hp₂ : p₂.commandedPos = m₂ := h₂.ends
  have h₃ : Followed p₂ [m₃] q := by
    refine h.down.followed ?_ ?_ (hp₂ ▸ hexact₃)
    · rw [hp₂, hlength h.across, length_set, hlen, hax₂]
    · rw [hlen, hax₂]
  exact h₁.cons (h₂.cons h₃)

omit [IsStrictOrderedRing K] in
theorem Hopped.targetsOf {p₁ p₂ : Printer K} {m₁ m₂ m₃ : List K}
    (h : Hopped p newpos p₁ p₂ q m₁ m₂ m₃) (hnozzle : HasNozzle p) :
    Pnp.targetsOf true p newpos = some [m₁, m₂, m₃] := by
  obtain ⟨tr₁, hreq₁, -⟩ := h.up.asked
  obtain ⟨tr₂, hreq₂, -⟩ := h.across.asked
  obtain ⟨tr₃, hreq₃, -⟩ := h.down.asked
  rw [(h.request _).1] at hreq₂
  rw [(h.request _).2] at hreq₃
  refine (targetsOf_nozzle hnozzle).mpr ⟨m₁, m₂, m₃, rfl, ?_, ?_, ?_⟩
  · rw [hreq₁, map_some]
  · rw [hreq₂, map_some]
  · rw [hreq₃, map_some]

/-- A move, or a safe move, of the manager. -/
def Machine.moveOrSafe (check : Check K) (m : Machine K) (safe : Bool)
    (newpos : List K) (speed : K) : Outcome K :=
  if safe then m.safeMove check newpos speed else m.move check newpos speed

variable {m m' : Machine K}

/-- **THE TOOL HEAD FOLLOWS** what it is asked for, if it can make each move exactly. -/
theorem followed_of_moveOrSafe (hc : m.printer.commandedPos.length = m.printer.axes.length)
    (hlen : newpos.length = m.printer.axes.length)
    (h : m.moveOrSafe check safe newpos speed = (m', none))
    (htargets : targetsOf safe m.printer newpos = some targets)
    (hexact : (m.printer.commandedPos :: targets).IsChain MovesExactly) :
    Followed m.printer targets m'.printer := by
  by_cases hthree : safe = true ∧ HasNozzle m.printer
  · obtain ⟨rfl, hnozzle⟩ := hthree
    rw [Machine.moveOrSafe, if_pos rfl] at h
    obtain ⟨p₁, p₂, m₁, m₂, m₃, hop⟩ := hopped_of_safeMove hc hlen (on_ok h) hnozzle
    have heq := htargets.symm.trans (hop.targetsOf hnozzle)
    cases heq
    exact hop.followed hc hlen hexact
  · have hwent : ∃ mpos, Went m.printer newpos mpos m'.printer := by
      cases safe with
      | true =>
        rw [Machine.moveOrSafe, if_pos rfl] at h
        exact went_of_safeMove hc hlen (on_ok h) fun hn => hthree ⟨rfl, hn⟩
      | false =>
        rw [Machine.moveOrSafe, if_neg Bool.false_ne_true] at h
        exact went_of_moveWithTransform (on_ok h)
    obtain ⟨mpos, hwent⟩ := hwent
    obtain ⟨tr, hreq, -⟩ := hwent.asked
    rw [targetsOf_straight (fun hs hn => hthree ⟨hs, hn⟩), hreq] at htargets
    cases htargets
    exact hwent.followed hc hlen (isChain_cons_cons.mp hexact).1

/-! ## Requests -/

/-- `PNP_GOTO`, and `pnp/jog` and `pnp/move` with `safe`. -/
def Request.IsSafe : Request K → Prop
  | .pnpGoto _ _ => True
  | .jog _ _ safe => safe = true
  | .move _ _ safe => safe = true
  | .gcode _ | .manualStepper _ _ | .pnpTool _ _ | .tool _ _ => False

/-- The target of a request, and whether it is reached by a safe move. -/
def Request.goal (m : Machine K) : Request K → Option (List K × Bool)
  | .pnpGoto loc _ => (m.posFromDict loc).map fun pos => (pos, true)
  | .jog d _ safe =>
    if m.getPosition.length < 5 then none
    else some (m.jogTarget d, safe ∧ ¬ (d.x = 0 ∧ d.y = 0))
  | .move target _ safe =>
    (overlay m.getPosition target.toList).map fun pos =>
      (pos, safe ∧ ¬ (target.x = none ∧ target.y = none))
  | .gcode _ | .manualStepper _ _ | .pnpTool _ _ | .tool _ _ => none

omit [LinearOrder K] [IsStrictOrderedRing K] in
/-- A jog in other axes keeps X and Y. -/
theorem take_jogTarget {d : Coords K} (hx : d.x = 0) (hy : d.y = 0)
    (hfive : 5 ≤ m.getPosition.length) : (m.jogTarget d).take 2 = m.getPosition.take 2 := by
  rw [Machine.jogTarget, Coords.toList, hx, hy]
  obtain ⟨x, y, z, e, r, rest, hpos⟩ := exists_of_five_le hfive
  rw [hpos]
  simp

omit [Field K] [LinearOrder K] [IsStrictOrderedRing K] in
/-- A target without X and Y keeps them. -/
theorem take_overlay {curr xs : List K} {dest : List (Option K)}
    (h : overlay curr (none :: none :: dest) = some xs) : xs.take 2 = curr.take 2 := by
  match curr with
  | [] =>
    have hlen := length_overlay h
    rw [length_eq_zero_iff.mp hlen]
  | [x] =>
    obtain ⟨ys, hys, rfl⟩ := map_eq_some_iff.mp h
    have hlen := length_overlay hys
    rw [length_eq_zero_iff.mp hlen]
    rfl
  | x :: y :: curr =>
    obtain ⟨ys, hys, rfl⟩ := map_eq_some_iff.mp h
    obtain ⟨zs, -, rfl⟩ := map_eq_some_iff.mp hys
    rfl

omit [IsStrictOrderedRing K] in
/-- **A SAFE REQUEST** is a safe move to its target, or a move to a target that keeps X and Y. -/
theorem Request.IsSafe.goal {r : Request K} (hr : r.IsSafe) (h : r.goal m = some (newpos, safe)) :
    newpos.length = m.getPosition.length ∧ (safe = true ∨ newpos.take 2 = m.getPosition.take 2) ∧
    ∀ check, ∃ speed, m.handle check r = m.moveOrSafe check safe newpos speed := by
  cases r with
  | gcode c | manualStepper n gcodeAxis | pnpTool set wantMove | tool tool wantMove =>
    exact absurd hr id
  | pnpGoto loc speed =>
    obtain ⟨pos, hpos, heq⟩ := map_eq_some_iff.mp h
    cases heq
    refine ⟨length_posFromDict hpos, .inl rfl, fun check => ⟨speed.getD m.printer.speed, ?_⟩⟩
    rw [Machine.handle, Machine.cmdPnpGoto, hpos]
    rfl
  | jog d f safe =>
    obtain rfl : safe = true := hr
    rw [Request.goal] at h
    split at h
    · cases h
    · rename_i hfive
      cases h
      have hfive' := Nat.le_of_not_lt hfive
      refine ⟨length_jogTarget d hfive', ?_, fun check => ⟨m.webSpeed f, ?_⟩⟩
      · by_cases hxy : d.x = 0 ∧ d.y = 0
        · exact .inr (take_jogTarget hxy.1 hxy.2 hfive')
        · exact .inl (decide_eq_true ⟨rfl, hxy⟩)
      · rw [Machine.handle, Machine.webhooksJog, if_neg hfive, Machine.moveOrSafe]
        simp only [decide_eq_true_eq]
  | move target f safe =>
    obtain rfl : safe = true := hr
    obtain ⟨pos, hpos, heq⟩ := map_eq_some_iff.mp h
    cases heq
    refine ⟨length_overlay hpos, ?_, fun check => ⟨m.webSpeed f, ?_⟩⟩
    · by_cases hxy : target.x = none ∧ target.y = none
      · rw [Coords.toList, hxy.1, hxy.2] at hpos
        exact .inr (take_overlay hpos)
      · exact .inl (decide_eq_true ⟨rfl, hxy⟩)
    · rw [Machine.handle, Machine.webhooksMove, hpos, Machine.moveOrSafe]
      simp only [decide_eq_true_eq]

omit [IsStrictOrderedRing K] in
/-- A safe request without a target makes no move. -/
theorem Request.IsSafe.handle_of_no_goal {r : Request K} (hr : r.IsSafe)
    (h : r.goal m = none) (check : Check K) : m.handle check r = (m, some .internal) := by
  cases r with
  | gcode c | manualStepper n gcodeAxis | pnpTool set wantMove | tool tool wantMove =>
    exact absurd hr id
  | pnpGoto loc speed => rw [Machine.handle, Machine.cmdPnpGoto, map_eq_none_iff.mp h]
  | jog d f safe =>
    rw [Request.goal] at h
    split at h
    · rename_i hfive
      rw [Machine.handle, Machine.webhooksJog, if_pos hfive]
    · cases h
  | move target f safe => rw [Machine.handle, Machine.webhooksMove, map_eq_none_iff.mp h]

/-- **SAFE MOVES LIFT FIRST**, with a nozzle and without a tool, exactly if there is a nozzle, X
    and Y do not change, or the move leads from Z = 0 to Z = 0: the moves asked for, and those
    made when they can be made exactly. -/
theorem safeMove_lifts_iff (hc : m.printer.commandedPos.length = m.printer.axes.length)
    (hcam : ¬ HasCamera m.printer) :
    (∀ newpos safe targets, newpos.length = m.getPosition.length →
      (safe = true ∨ newpos.take 2 = m.getPosition.take 2) →
      targetsOf safe m.printer newpos = some targets →
      (LiftsFirst m.printer (legs m.printer.commandedPos targets) ↔ Lifted m.printer newpos) ∧
      ∀ check speed m',
        m.moveOrSafe check safe newpos speed = (m', none) →
        (m.printer.commandedPos :: targets).IsChain MovesExactly →
        ∃ made, m'.printer.moves = m.printer.moves ++ made ∧
          (LiftsFirst m.printer made ↔ Lifted m.printer newpos)) ∧
    ∀ r : Request K, r.IsSafe →
      (∀ newpos safe, r.goal m = some (newpos, safe) → newpos.length = m.getPosition.length ∧
        (safe = true ∨ newpos.take 2 = m.getPosition.take 2) ∧
        ∀ check, ∃ speed,
          m.handle check r = m.moveOrSafe check safe newpos speed) ∧
      (r.goal m = none → ∀ check, m.handle check r = (m, some .internal)) := by
  have hcurr : m.getPosition.length = m.printer.axes.length := length_positionWithTransform hc
  have hthree : 3 ≤ m.getPosition.length := by
    have hax := length_axes m.printer
    omega
  refine ⟨fun newpos safe targets hlen hsafe htargets => ?_, fun r hr => ?_⟩
  · have hiff := liftsFirst_iff hcam hthree (hlen ▸ hthree) hsafe htargets
    refine ⟨hiff, fun check speed m' hmove hexact => ?_⟩
    have hfollowed := followed_of_moveOrSafe hc (hlen.trans hcurr) hmove htargets hexact
    exact ⟨_, hfollowed.moves, (liftsFirst_filter _).trans hiff⟩
  · exact ⟨fun newpos safe hgoal => hr.goal hgoal,
      fun hgoal check => hr.handle_of_no_goal hgoal check⟩

/-- A machine with the tilted nozzle. -/
def nozzleMachine : Machine ℚ := { originMachine with printer := nozzlePrinter }

/-- `pnp/jog` with X = 5 and Z = -3. -/
def jogX5Down : Request ℚ := .jog ⟨5, 0, -3, 0, 0⟩ none true

/-- A nozzle that is jogged in X and Z does not change X below Z = 0. -/
theorem safeMove_lifts_nozzle : ∃ m' made,
    nozzleMachine.handle noCheck jogX5Down = (m', none) ∧
    m'.printer.moves = nozzleMachine.printer.moves ++ made ∧
    made.length = 2 ∧ LiftsFirst nozzleMachine.printer made := by
  have hcam : ¬ HasCamera nozzleMachine.printer := by
    rintro ⟨letter, cam, htr⟩
    cases htr
  obtain ⟨hlift, hrequest⟩ := safeMove_lifts_iff (m := nozzleMachine) rfl hcam
  obtain ⟨hlen, hsafe, hhandle⟩ :=
    (hrequest jogX5Down rfl).1 (nozzleMachine.jogTarget ⟨5, 0, -3, 0, 0⟩) true (by decide +kernel)
  obtain ⟨speed, hhandle⟩ := hhandle noCheck
  have herr : (nozzleMachine.handle noCheck jogX5Down).2 = none := by decide +kernel
  have hlength : ((nozzleMachine.handle noCheck jogX5Down).1.printer.moves).length
      = nozzleMachine.printer.moves.length + 2 := by decide +kernel
  generalize hm' : (nozzleMachine.handle noCheck jogX5Down).1 = m' at hlength
  have hdone : nozzleMachine.handle noCheck jogX5Down = (m', none) := Prod.ext hm' herr
  obtain ⟨-, hmade⟩ := hlift _ true [[0, 0, 0, 0, 0], [5, 0, 0, 0, 0], [23 / 4, 3 / 2, -3, 0, 0]]
    hlen hsafe (by decide +kernel)
  have hexact : (nozzleMachine.printer.commandedPos :: [[0, 0, 0, 0, 0],
      [5, 0, 0, 0, 0], [23 / 4, 3 / 2, -3, 0, 0]]).IsChain MovesExactly := by
    simp only [isChain_cons_cons]
    exact ⟨.inl (by decide +kernel), .inr (by decide +kernel),
      .inr (by decide +kernel), List.IsChain.singleton _⟩
  obtain ⟨made, hmoves, hiff⟩ := hmade noCheck speed m' (hhandle.symm.trans hdone) hexact
  refine ⟨m', made, hdone, hmoves, ?_, hiff.mpr (.inl ⟨_, _, _, rfl⟩)⟩
  rw [hmoves, length_append] at hlength
  exact Nat.add_left_cancel hlength

/-- A machine without a tool that is below Z = 0. -/
def lowMachine : Machine ℚ := .ready ⟨"R", r_free⟩ ⟨0, 0, -5, 0, 0⟩ [] (fun _ => 0) 0 0

/-- Without a tool a safe move changes X below Z = 0. -/
theorem safeMove_stays_low :
    ((lowMachine.handle noCheck (moveX5 true)).2,
      (lowMachine.handle noCheck (moveX5 true)).1.printer.moves)
      = (none, [([0, 0, -5, 0, 0], [5, 0, -5, 0, 0])]) ∧
    ¬ LiftsFirst lowMachine.printer (lowMachine.handle noCheck (moveX5 true)).1.printer.moves := by
  have hrun : ((lowMachine.handle noCheck (moveX5 true)).2,
      (lowMachine.handle noCheck (moveX5 true)).1.printer.moves)
      = (none, [([0, 0, -5, 0, 0], [5, 0, -5, 0, 0])]) := by decide +kernel
  refine ⟨hrun, fun hlift => ?_⟩
  rw [(Prod.mk.inj hrun).2] at hlift
  have hlevel := hlift _ mem_cons_self
  have hz := (hlevel (by decide +kernel)).1
  exact absurd (some.inj hz) (by decide +kernel)

end Pnp
