import Pick.PnpPositionProofs

/-! # Where moves lead in tool space

A move of the manager asks the tool head for the machine position of its
target.  If the tool head gets there the target is read back, and so it is at
the end of a safe move.

A safe move of a nozzle goes up, over and down.  One without a tool goes
straight. -/

namespace Pnp

open Attempt GcodeMove ListHeap Option Pnptool

variable {K : Type} [Field K]

/-! ## Moves that have been made -/

theorem request_congr {p q : Printer K} (htr : q.transform = p.transform)
    (hax : q.registeredAxes = p.registeredAxes) (newpos : List K) :
    request q newpos = request p newpos := by
  simp only [request, htr, rIndex_congr hax]

variable [LinearOrder K] {check : Check K} {p q : Printer K} {newpos : List K}
  {speed : K}

/-- From `p` to `q` the tool head has been asked for the machine position
    `mpos` of `newpos`, and has not refused. -/
structure Went (p : Printer K) (newpos mpos : List K) (q : Printer K) : Prop where
  asked : ∃ tr, request p newpos = some (tr, mpos) ∧ q.transform = tr
  axes : q.registeredAxes = p.registeredAxes
  made : ∃ (check : Check K) (speed : K) (q₁ : Printer K),
    toolheadMove check { p with transform := q.transform } mpos speed
      = (q₁, none) ∧ q₁.commandedPos = q.commandedPos ∧ q₁.moves = q.moves

variable {mpos : List K} {letter : RLetter}

/-- A move of the tool head, read back or not, has been made. -/
theorem went_of_toolheadMove {tr : Transform K}
    {q₁ : Printer K} (hreq : request p newpos = some (tr, mpos))
    (hmove : toolheadMove check { p with transform := tr } mpos speed
      = (q₁, none)) {heap : Heap K} {last : Ref}
    (hq : q = { q₁ with heap := heap, lastPosition := last }) : Went p newpos mpos q := by
  obtain ⟨c, moves, hframe⟩ := toolheadMove_frame check { p with transform := tr } mpos speed
  have hq₁ : q₁ = { p with transform := tr, commandedPos := c, moves := moves } := by
    rw [hmove] at hframe
    exact hframe
  subst hq hq₁
  exact ⟨⟨tr, hreq, rfl⟩, rfl, check, speed, _, hmove, rfl, rfl⟩

theorem went_of_moveWithTransform (h : moveWithTransform check p newpos speed = (q, none)) :
    ∃ mpos, Went p newpos mpos q := by
  obtain ⟨tr, mpos, c, m, hreq, hmove, hq⟩ := moveWithTransform_ok h
  obtain ⟨heap, last, heq, -, -⟩ := afterMove_spec
    { p with transform := tr, commandedPos := c, moves := m }
  exact ⟨mpos, went_of_toolheadMove hreq hmove (hq.trans heq)⟩

/-- A move of the manager is that of its tool, read back once more. -/
theorem went_of_toolMove {tool : Tool K} (htr : p.transform = .pnp letter (some tool))
    (h : toolMove check letter tool p newpos speed = (q, none)) : ∃ mpos, Went p newpos mpos q := by
  have hreset : moveWithTransform check p newpos speed = (q.resetLastPosition, none) := by
    rw [moveWithTransform, htr]
    dsimp only
    rw [h]
    rfl
  obtain ⟨mpos, hwent⟩ := went_of_moveWithTransform hreset
  exact ⟨mpos, hwent.asked, hwent.axes, hwent.made⟩

/-- **WHERE THE TOOL HEAD GETS THERE, THE TARGET IS READ BACK.** -/
theorem Went.position (h : Went p newpos mpos q)
    (hreach : q.commandedPos = mpos) : q.positionWithTransform = newpos := by
  obtain ⟨tr, hreq, htr⟩ := h.asked
  exact positionWithTransform_request hreq htr h.axes hreach

/-! ## Safe moves -/

omit [Field K] [LinearOrder K] in
/-- A position of the right length replaces the present one. -/
theorem overlay_some {curr : List K} : ∀ {newpos : List K},
    newpos.length = curr.length → overlay curr (newpos.map some) = some newpos := by
  induction curr with
  | nil =>
    intro newpos h
    rw [List.length_eq_zero_iff.mp h]
    rfl
  | cons c curr ih =>
    intro newpos h
    cases newpos with
    | nil => exact nomatch h
    | cons x newpos =>
      rw [List.map_cons, overlay, ih (Nat.succ.inj h)]
      rfl

/-- The transform is a nozzle, and stays it. -/
theorem Went.transform_of_nozzle {trig : Trig K} {tool : Nozzle K}
    (htr : p.transform = .pnp letter (some (.nozzle trig tool)))
    (h : Went p newpos mpos q) : q.transform = p.transform := by
  obtain ⟨tr, hreq, htr'⟩ := h.asked
  rw [request, htr] at hreq
  obtain ⟨m, -, he⟩ := map_eq_some_iff.mp hreq
  rw [htr', htr, ← (Prod.mk.inj he).1]

theorem went_of_straight (hreq : request p newpos = some (p.transform, newpos))
    (h : toolheadMove check p newpos speed = (q, none)) : Went p newpos newpos q :=
  went_of_toolheadMove hreq h rfl

/-- The active tool is a nozzle. -/
def HasNozzle (p : Printer K) : Prop :=
  ∃ letter trig tool, p.transform = .pnp letter (some (.nozzle trig tool))

/-- The three stages of a safe move with a nozzle. -/
structure Hopped (p : Printer K) (newpos : List K) (p₁ p₂ q : Printer K)
    (m₁ m₂ m₃ : List K) : Prop where
  up : Went p (p.positionWithTransform.set 2 0) m₁ p₁
  across : Went p₁ (newpos.set 2 0) m₂ p₂
  down : Went p₂ newpos m₃ q
  transform₁ : p₁.transform = p.transform
  transform₂ : p₂.transform = p.transform

theorem Hopped.request {p₁ p₂ : Printer K} {m₁ m₂ m₃ : List K}
    (h : Hopped p newpos p₁ p₂ q m₁ m₂ m₃) (xs : List K) :
    GcodeMove.request p₁ xs = GcodeMove.request p xs ∧
      GcodeMove.request p₂ xs = GcodeMove.request p xs :=
  ⟨request_congr h.transform₁ h.up.axes xs,
    request_congr h.transform₂ (h.across.axes.trans h.up.axes) xs⟩

/-- The tool head is at the machine position of `newpos`. -/
def Reached (p : Printer K) (newpos : List K) (q : Printer K) : Prop :=
  ∀ tr mpos, request p newpos = some (tr, mpos) → q.commandedPos = mpos

section Sized

variable (hc : p.commandedPos.length = p.axes.length)
  (hlen : newpos.length = p.axes.length) (h : safeMove check p newpos speed = (q, none))
include hc hlen h

/-- A safe move without a nozzle is one move. -/
theorem went_of_safeMove (hno : ¬ HasNozzle p) : ∃ mpos, Went p newpos mpos q := by
  rw [safeMove] at h
  split at h
  · rename_i htr
    have hreq : request p newpos = some (p.transform, newpos) := by rw [request, htr]
    exact ⟨newpos, went_of_straight hreq h⟩
  · rename_i letter htr
    have hreq : request p newpos = some (p.transform, newpos) := by rw [request, htr]
    exact ⟨newpos, went_of_straight hreq h⟩
  · rename_i letter tool htr
    rw [toolSafeMove, overlay_some (hlen.trans (length_positionWithTransform hc).symm)] at h
    cases tool with
    | camera cam => exact went_of_toolMove htr h
    | nozzle trig tool => exact absurd ⟨letter, trig, tool, htr⟩ hno

theorem hopped_of_safeMove (hnozzle : HasNozzle p) :
    ∃ p₁ p₂ m₁ m₂ m₃, Hopped p newpos p₁ p₂ q m₁ m₂ m₃ := by
  obtain ⟨letter, trig, tool, htr⟩ := hnozzle
  rw [safeMove, htr] at h
  dsimp only at h
  rw [toolSafeMove, overlay_some (hlen.trans (length_positionWithTransform hc).symm)] at h
  obtain ⟨p₁, hup, h⟩ := andThen_ok h
  obtain ⟨p₂, hacross, h⟩ := andThen_ok h
  obtain ⟨m₁, w₁⟩ := went_of_toolMove htr hup
  have htr₁ := w₁.transform_of_nozzle htr
  obtain ⟨m₂, w₂⟩ := went_of_toolMove (htr₁.trans htr) hacross
  have htr₂ := (w₂.transform_of_nozzle (htr₁.trans htr)).trans htr₁
  obtain ⟨m₃, w₃⟩ := went_of_toolMove (htr₂.trans htr) h
  exact ⟨p₁, p₂, m₁, m₂, m₃, w₁, w₂, w₃, htr₁, htr₂⟩

/-! ## Round trips -/

theorem safeMove_position (hreach : Reached p newpos q) : q.positionWithTransform = newpos := by
  by_cases hnozzle : HasNozzle p
  · obtain ⟨p₁, p₂, m₁, m₂, m₃, hop⟩ := hopped_of_safeMove hc hlen h hnozzle
    obtain ⟨tr, hreq, -⟩ := hop.down.asked
    rw [(hop.request newpos).2] at hreq
    exact hop.down.position (hreach tr m₃ hreq)
  · obtain ⟨mpos, hwent⟩ := went_of_safeMove hc hlen h hnozzle
    obtain ⟨tr, hreq, -⟩ := hwent.asked
    exact hwent.position (hreach tr mpos hreq)

end Sized

/-! ## Moves that nothing objects to -/

section Done

/-- The rotation axis of the active tool is registered. -/
def HasRotation (p : Printer K) : Prop :=
  ∀ letter tool, p.transform = .pnp letter (some tool) → p.rIndex letter ≠ none

variable (hcheck : ∀ s e v, check s e v = none) (speed : K)
  (hc : p.commandedPos.length = p.axes.length) (hp : Sized p) (hr : HasRotation p)
  (hlen : newpos.length = p.axes.length)
include hlen

include hr in
omit [LinearOrder K] in
theorem request_isSome : ∃ tr mpos, request p newpos = some (tr, mpos) := by
  have hget : ∀ letter tool, p.transform = .pnp letter (some tool) →
      ∃ i r, p.rIndex letter = some i ∧ newpos[i]? = some r := by
    intro letter tool htr
    obtain ⟨i, hi⟩ := ne_none_iff_exists'.mp (hr letter tool htr)
    have hlt : i < newpos.length := by
      rw [hlen]
      exact rIndex_lt p hi
    exact ⟨i, _, hi, List.getElem?_eq_getElem hlt⟩
  rw [request]
  split
  · exact ⟨_, _, rfl⟩
  · exact ⟨_, _, rfl⟩
  · rename_i letter trig tool htr
    obtain ⟨i, r, hi, hget⟩ := hget letter _ htr
    simp only [hi, Nozzle.gcodeToMachine, hget, map_some]
    exact ⟨_, _, rfl⟩
  · rename_i letter cam htr
    obtain ⟨i, r, hi, hget⟩ := hget letter _ htr
    simp only [hi, Camera.request, hget, map_some]
    exact ⟨_, _, rfl⟩

include hcheck

include hc in
omit [LinearOrder K] in
theorem queueMove_done : ∃ q, queueMove check p newpos speed = (q, none) := by
  rw [queueMove, hcheck, if_neg]
  · exact ⟨_, rfl⟩
  · rw [axesD, List.length_zipWith, hc, hlen, Nat.min_self]
    exact Nat.lt_irrefl _

include hc in
theorem toolheadMove_done : ∃ q, toolheadMove check p newpos speed = (q, none) := by
  rw [toolheadMove]
  split
  · split
    · exact ⟨p, rfl⟩
    · refine queueMove_done hcheck speed hc ?_
      have hax := length_axes p
      rw [List.length_append, List.length_take, List.length_drop]
      omega
  · exact queueMove_done hcheck speed hc hlen

include hp hr

theorem moveWithTransform_done : ∃ q, moveWithTransform check p newpos speed = (q, none) := by
  obtain ⟨tr, mpos, hreq⟩ := request_isSome hr hlen
  obtain ⟨q, hq⟩ := toolheadMove_done hcheck (p := { p with transform := tr })
    speed hp.commanded ((length_request hreq).trans hlen)
  refine ⟨afterMove q, ?_⟩
  rw [moveWithTransform_eq, hreq]
  dsimp only
  rw [hq]
  rfl

/-- A move of the active tool. -/
theorem toolMove_done {tool : Tool K} (htr : p.transform = .pnp letter (some tool)) :
    ∃ q, toolMove check letter tool p newpos speed = (q, none) := by
  obtain ⟨q, hq⟩ := moveWithTransform_done hcheck speed hp hr hlen
  rw [moveWithTransform, htr] at hq
  obtain ⟨q₁, hq₁, -⟩ := andThen_ok hq
  exact ⟨q₁, hq₁⟩

theorem safeMove_done : ∃ q, safeMove check p newpos speed = (q, none) := by
  rw [safeMove]
  split
  · exact toolheadMove_done hcheck speed hp.commanded hlen
  · exact toolheadMove_done hcheck speed hp.commanded hlen
  · rename_i letter tool htr
    have hcurr := length_positionWithTransform hp.commanded
    rw [toolSafeMove, overlay_some (hlen.trans hcurr.symm)]
    cases tool with
    | camera cam => exact toolMove_done hcheck speed hp hr hlen htr
    | nozzle trig tool =>
      -- each stage leaves a printer of the same kind
      have hstage : ∀ {p₁ : Printer K} {xs : List K}, Sized p₁ → p₁.transform = p.transform →
          p₁.registeredAxes = p.registeredAxes →
          xs.length = p.axes.length →
          ∃ p₂, toolMove check letter (.nozzle trig tool) p₁ xs speed
              = (p₂, none) ∧ Sized p₂ ∧ p₂.transform = p.transform ∧
            p₂.registeredAxes = p.registeredAxes := by
        intro p₁ xs hp₁ htr₁ hax₁ hxs
        have hr₁ : HasRotation p₁ := by
          intro letter' tool' htr'
          rw [rIndex_congr hax₁]
          exact hr letter' tool' (htr₁.symm.trans htr')
        have hlen₁ : xs.length = p₁.axes.length := by rw [hxs, length_axes, length_axes, hax₁]
        obtain ⟨p₂, h₂⟩ := toolMove_done hcheck speed hp₁ hr₁ hlen₁ (htr₁.trans htr)
        obtain ⟨mpos, hwent⟩ := went_of_toolMove (htr₁.trans htr) h₂
        have hsized : Sized
            (toolMove check letter (.nozzle trig tool) p₁ xs speed).1 :=
          (moveWalk_keeps.toolMove hlen₁.le hp₁).1
        rw [h₂] at hsized
        exact ⟨p₂, h₂, hsized, (hwent.transform_of_nozzle (htr₁.trans htr)).trans htr₁,
          hwent.axes.trans hax₁⟩
      obtain ⟨p₁, h₁, hp₁, htr₁, hax₁⟩ := hstage hp rfl rfl
        ((List.length_set (i := 2) (a := 0)).trans hcurr)
      obtain ⟨p₂, h₂, hp₂, htr₂, hax₂⟩ := hstage hp₁ htr₁ hax₁
        ((List.length_set (i := 2) (a := 0)).trans hlen)
      obtain ⟨p₃, h₃, -⟩ := hstage hp₂ htr₂ hax₂ hlen
      refine ⟨p₃, ?_⟩
      dsimp only
      rw [h₁]
      show andThen (toolMove check letter _ p₁ _ speed) _ = _
      rw [h₂]
      exact h₃

end Done

/-- **TOOL SPACE ROUND TRIP**: for every tool and without one, a move or safe move that brings
    the tool head to the machine position of its target is read back as that target; both are
    done if nothing objects; and the conversions of a nozzle are inverse to each other. -/
theorem toolSpace_round_trip (hp : Sized p)
    (hlen : newpos.length = p.axes.length) (check : Check K) (speed : K) :
    (∀ q, moveWithTransform check p newpos speed = (q, none) →
      Reached p newpos q → q.positionWithTransform = newpos) ∧
    (∀ q, safeMove check p newpos speed = (q, none) →
      Reached p newpos q → q.positionWithTransform = newpos) ∧
    (HasRotation p → (∀ s e v, check s e v = none) →
      (∃ q, moveWithTransform check p newpos speed = (q, none)) ∧
      ∃ q, safeMove check p newpos speed = (q, none)) ∧
    ∀ (trig : Trig K) (tool : Nozzle K) (rIdx : Nat) (gpos mpos : List K),
      3 ≤ rIdx → rIdx < mpos.length →
      (tool.gcodeToMachine trig (some rIdx) gpos = some mpos ↔
        tool.machineToGcode trig (some rIdx) mpos = gpos) := by
  refine ⟨?_, ?_, ?_, ?_⟩
  · intro q h hreach
    obtain ⟨mpos, hwent⟩ := went_of_moveWithTransform h
    obtain ⟨tr, hreq, -⟩ := hwent.asked
    exact hwent.position (hreach tr mpos hreq)
  · intro q h hreach
    exact safeMove_position hp.commanded hlen h hreach
  · intro hr hcheck
    exact ⟨moveWithTransform_done hcheck speed hp hr hlen, safeMove_done hcheck speed hp hr hlen⟩
  · intro trig tool rIdx gpos mpos hIdx hlt
    refine ⟨fun h => ?_, ?_⟩
    · exact Nozzle.machineToGcode_gcodeToMachine trig tool hIdx h
    · rintro rfl
      exact Nozzle.gcodeToMachine_machineToGcode trig tool hIdx hlt

/-- A nozzle that is tilted and runs out; `cos` and `sin` are any functions. -/
def tiltedNozzle : Tool ℚ :=
  .nozzle ⟨fun x => 2 * x, fun x => x + 1, 3⟩ ⟨some ⟨1, 2⟩, .deg, 9, 23, 1, 2, 4, by decide⟩

/-- A printer at the origin with this nozzle. -/
def nozzlePrinter : Printer ℚ :=
  .ready [some "R"] [0, 0, 0, 0, 0] (.pnp ⟨"R", r_free⟩ (some tiltedNozzle))

theorem toolSpace_round_trip_nozzle :
    ∃ q, safeMove noCheck nozzlePrinter [1, 2, -3, 4, 5] 1 = (q, none) ∧
      q.positionWithTransform = [1, 2, -3, 4, 5] := by
  have hp : Sized nozzlePrinter :=
    have hwf : WellFormed nozzlePrinter := wellFormed_ready rfl
    { hwf with }
  have hr : HasRotation nozzlePrinter := by
    intro letter tool htr
    injection htr with hletter
    rw [← hletter]
    decide +kernel
  have hlen : ([1, 2, -3, 4, 5] : List ℚ).length = nozzlePrinter.axes.length := rfl
  obtain ⟨-, hsafe, hdone, -⟩ := toolSpace_round_trip hp hlen noCheck 1
  obtain ⟨-, q, hq⟩ := hdone hr fun _ _ _ => rfl
  refine ⟨q, hq, hsafe q hq fun tr mpos hreq => ?_⟩
  have hmap : (request nozzlePrinter [1, 2, -3, 4, 5]).map Prod.snd
      = some (safeMove noCheck nozzlePrinter [1, 2, -3, 4, 5] 1).1.commandedPos := by
    decide +kernel
  rw [hreq, hq] at hmap
  exact (some.inj hmap).symm

end Pnp
