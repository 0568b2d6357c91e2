import Pick.PnpLiftProofs

/-! # Tool changes that keep the work position

`PNP_TOOL ... MOVE=1` takes the position before the change and goes there
with the new tool.  In between the rotation axis has been taken out of the
position lists and put back at their end, so the position is one of other
axes: each axis behind the rotation axis goes where the one before it was,
and the rotation axis where the last one was. -/

namespace Pnp

open Attempt GcodeMove List ListHeap Option Pnptool

variable {K : Type} [Field K] {m m' : Machine K}

/-! ## What becomes of the axes -/

variable {id : AxisId} {p : Printer K} {tool : Option (Tool K)} {i j : Nat}

/-- `unbind_gcode_axis` takes an axis that has a letter out of the lists. -/
theorem Consistent.unbind_axes (h : Consistent m) (hdone : m.unbindGcodeAxis id = (m', none)) :
    ((m.axes id).gcodeId = none ∧ m' = m) ∨
    ∃ i, m.extra[i]? = some id ∧ m'.extra = m.extra.eraseIdx i ∧ m'.extra.length < m.extra.length ∧
      m'.printer.registeredAxes = m.printer.registeredAxes.eraseIdx i := by
  rw [Machine.unbindGcodeAxis] at hdone
  split at hdone
  · rename_i hid
    exact .inl ⟨hid, (Prod.mk.inj hdone).1.symm⟩
  · rename_i letter hid
    obtain ⟨i, hi, hremove, -⟩ := h.removeExtraAxis hid
    rw [hremove, andThen_none] at hdone
    obtain rfl := (Prod.mk.inj hdone).1
    refine .inr ⟨i, hi, rfl, ?_, rfl⟩
    have hlt := (List.getElem?_eq_some_iff.mp hi).1
    show (m.extra.eraseIdx i).length < m.extra.length
    rw [length_eraseIdx_of_lt hlt]
    omega

/-- A registration that is not refused puts the axis at the end. -/
theorem Consistent.register_axes (h : Consistent m)
    (hid : (m.axes id).gcodeId = none) {letter : String}
    (hdone : m.registerAxis id letter = (m', none)) :
    some letter ∉ m.printer.registeredAxes ∧ m'.extra = m.extra ++ [id] ∧
      m'.printer.registeredAxes = m.printer.registeredAxes ++ [some letter] := by
  have hnew : some letter ∉ m.printer.registeredAxes := by
    intro hmem
    have hmem' : some letter ∈ m.printer.extraAxes := mem_cons_of_mem _ hmem
    rw [Machine.registerAxis] at hdone
    split at hdone
    · cases (Prod.mk.inj hdone).2
    · cases (Prod.mk.inj hdone).2
  rcases h.registerAxis hid letter with ⟨msg, hreg⟩ | ⟨hreg, -⟩
  · rw [hreg] at hdone
    cases (Prod.mk.inj hdone).2
  · rw [hreg] at hdone
    obtain rfl := (Prod.mk.inj hdone).1
    exact ⟨hnew, rfl, rfl⟩

/-- `bind_gcode_axis` has nothing to do, or no axis has the letter and the axis goes to the end. -/
theorem Consistent.bind_axes (h : Consistent m) {letter : String}
    (hdone : m.bindGcodeAxis id letter = (m', none)) :
    ((m.axes id).gcodeId = some letter ∧ m' = m) ∨
    ((∀ j, (m.axes j).gcodeId ≠ some letter) ∧
      (((m.axes id).gcodeId = none ∧ m'.extra = m.extra ++ [id] ∧
        m'.printer.registeredAxes
          = m.printer.registeredAxes ++ [some letter]) ∨
      m'.extra.length ≤ m.extra.length)) := by
  rw [Machine.bindGcodeAxis] at hdone
  split at hdone
  · rename_i hid
    exact .inl ⟨hid, (Prod.mk.inj hdone).1.symm⟩
  · rename_i hid
    obtain ⟨m₁, hunbind, hre, hnone, -⟩ := h.unbind id
    rw [hunbind, andThen_none] at hdone
    obtain ⟨m₂, hreg, hreset⟩ := andThen_ok hdone
    obtain rfl := (Prod.mk.inj hreset).1
    obtain ⟨hnew, hextra, hregistered⟩ := hre.consistent.register_axes hnone hreg
    refine .inr ⟨fun j hj => ?_, ?_⟩
    · -- another axis that has the letter still has it
      have hne : j ≠ id := by
        rintro rfl
        exact hid hj
      exact hnew (hre.consistent.mem_registered ((hre.others j hne).trans hj))
    · rcases h.unbind_axes hunbind with ⟨hno, rfl⟩ | ⟨i, -, -, hlen, -⟩
      · exact .inl ⟨hno, hextra, hregistered⟩
      · refine .inr ?_
        show m₂.extra.length ≤ m.extra.length
        rw [hextra, length_append]
        exact hlen

/-- What becomes of the axes of a machine that has a rotation axis. -/
inductive RMoved (m m' : Machine K) : Prop where
  | fewer (h : m'.extra.length < m.extra.length)
  | last (i : Nat) (id : AxisId) (hi : m.extra[i]? = some m.boundR)
      (hletter : (m.axes m.boundR).gcodeId = some m.rGcodeLetter.1)
      (hextra : m'.extra = m.extra.eraseIdx i ++ [id])
      (hregistered : m'.printer.registeredAxes
        = m.printer.registeredAxes.eraseIdx i ++ [some m.rGcodeLetter.1])
  | same (hletter : (m.axes m.boundR).gcodeId ≠ some m.rGcodeLetter.1) (hextra : m'.extra = m.extra)
      (hregistered : m'.printer.registeredAxes = m.printer.registeredAxes)

/-- `_rebind_r` puts the rotation axis at the end, unless an axis gets lost or the letter was
    elsewhere. -/
theorem Consistent.rebindR_axes (h : Consistent m)
    (hR : some m.rGcodeLetter.1 ∈ m.printer.registeredAxes)
    {tool : Option (ToolEntry K)} (hdone : m.rebindR tool = (m', none)) : RMoved m m' := by
  -- some axis has the rotation letter
  obtain ⟨owner, howner⟩ : ∃ j, (m.axes j).gcodeId = some m.rGcodeLetter.1 := by
    rw [h.registered] at hR
    obtain ⟨j, -, hj⟩ := mem_map.mp hR
    exact ⟨j, hj⟩
  obtain ⟨m₁, hunbind, hre, hnone, -⟩ := h.unbind m.boundR
  rw [Machine.rebindR, hunbind, andThen_none] at hdone
  obtain ⟨m₂, hbind, hset⟩ := andThen_ok hdone
  obtain rfl := (Prod.mk.inj hset).1
  rw [hre.sameTool.letter] at hbind
  by_cases hbound : (m.axes m.boundR).gcodeId = some m.rGcodeLetter.1
  · rcases h.unbind_axes hunbind with ⟨hno, -⟩ | ⟨i, hi, hextra₁, hlen₁, hreg₁⟩
    · cases hbound.symm.trans hno
    rcases hre.consistent.bind_axes hbind with
      ⟨-, rfl⟩ | ⟨-, ⟨-, hextra, hreg⟩ | hle⟩
    · exact .fewer hlen₁
    · refine .last i (wantedR tool) hi hbound ?_ ?_
      · rw [← hextra₁]
        exact hextra
      · rw [← hreg₁]
        exact hreg
    · exact .fewer (lt_of_le_of_lt hle hlen₁)
  · -- the letter stays where it is, so that it can only be found there
    have hne : owner ≠ m.boundR := by
      rintro rfl
      exact hbound howner
    rcases hre.consistent.bind_axes hbind with ⟨-, rfl⟩ | ⟨hnot, -⟩
    · rcases h.unbind_axes hunbind with ⟨-, rfl⟩ | ⟨i, -, -, hlen₁, -⟩
      · exact .same hbound rfl rfl
      · exact .fewer hlen₁
    · exact absurd ((hre.others owner hne).trans howner) (hnot owner)

/-! ## Changing the tool -/

section Change

variable [LinearOrder K] {check : Check K} {name : Option String}

theorem Steady.registered_parkZActuator (h : Steady m)
    (hdone : m.parkZActuator check = (m', none)) :
    m'.printer.registeredAxes = m.printer.registeredAxes := by
  rw [Machine.parkZActuator] at hdone
  split at hdone
  · have hlen : (m.getPosition.set 2 0).length ≤ m.printer.axes.length := by
      rw [length_set, h.length_getPosition]
    obtain rfl := (Prod.mk.inj hdone).1
    exact (moveWalk_keeps.moveWithTransform hlen h.consistent.sized).2
  · rw [(Prod.mk.inj hdone).1]

omit [LinearOrder K] in
theorem setActive_frame (m : Machine K) (name : Option String) :
    ∃ tools tool, m.setActive name = { m with
      tools := tools
      active := name
      printer := { m.printer with transform := .pnp m.rGcodeLetter tool } } := by
  obtain ⟨tools, hstore, -⟩ := storeActive_spec m
  rw [Machine.setActive, hstore]
  exact ⟨tools, _, rfl⟩

/-- The axes behind a tool change.  Axes get lost with a tool only. -/
theorem Steady.changeTool_axes (h : Steady m)
    (hR : some m.rGcodeLetter.1 ∈ m.printer.registeredAxes)
    (hdone : m.changeTool check name = (m', none)) :
    Steady m' ∧ RMoved m m' ∧ m'.rGcodeLetter = m.rGcodeLetter ∧
      (∃ tool, m'.printer.transform = .pnp m.rGcodeLetter tool) ∧
      (m'.extra.length < m.extra.length → HasTool m'.printer) := by
  obtain ⟨m₁, e, hchange, hsteady, hlen⟩ := h.changeTool check name
  obtain ⟨rfl, rfl⟩ := Prod.mk.inj (hchange.symm.trans hdone)
  have hfewer : m₁.extra.length < m.extra.length → HasTool m₁.printer := by
    intro hlt
    by_contra hno
    have hle := hlen rfl fun letter tool htr => hno ⟨letter, tool, htr⟩
    rw [h.length_axes, hsteady.length_axes] at hle
    omega
  obtain ⟨m₂, hpark, hdone⟩ := andThen_ok hdone
  obtain ⟨m₃, hrebind, hset⟩ := andThen_ok hdone
  obtain rfl := (Prod.mk.inj hset).1
  have h₂ : Steady m₂ := by
    have hsteady₂ : Steady (m.parkZActuator check).1 := h.parkZActuator
    rwa [hpark] at hsteady₂
  have hreg := h.registered_parkZActuator hpark
  obtain ⟨q, rfl⟩ := parkZActuator_ok hpark
  generalize name.bind (Dict.get m.tools) = entry at hrebind
  have hsteadyZ := h₂.rebindZ entry
  have hletter : m₃.rGcodeLetter = m.rGcodeLetter := by
    obtain ⟨m₄, e₄, hrebind₄, -, hsame, -⟩ := hsteadyZ.rebindR entry
    obtain ⟨rfl, -⟩ := Prod.mk.inj (hrebind₄.symm.trans hrebind)
    exact hsame.letter
  have hmoved := hsteadyZ.consistent.rebindR_axes (hreg ▸ hR) hrebind
  obtain ⟨tools, tool, hactive⟩ := setActive_frame m₃ name
  rw [hactive] at hsteady hfewer ⊢
  refine ⟨hsteady, ?_, hletter, ⟨tool, ?_⟩, hfewer⟩
  · cases hmoved with
    | fewer hlt => exact .fewer hlt
    | last i id hi hid hextra hregistered => exact .last i id hi hid hextra (hreg ▸ hregistered)
    | same hid hextra hregistered => exact .same hid hextra (hregistered.trans hreg)
  · rw [hletter]

/-! ## Landing -/

omit [Field K] [LinearOrder K] in
/-- A target with more coordinates than there are axes cannot be used. -/
theorem overlay_too_long {curr : List K} : ∀ {newpos : List K},
    curr.length < newpos.length → overlay curr (newpos.map some) = none := by
  induction curr with
  | nil =>
    intro newpos hlt
    cases newpos with
    | nil => exact absurd hlt (lt_irrefl _)
    | cons x newpos => rfl
  | cons c curr ih =>
    intro newpos hlt
    cases newpos with
    | nil => exact absurd hlt (Nat.not_lt_zero _)
    | cons x newpos =>
      rw [map_cons, overlay, ih (Nat.lt_of_succ_lt_succ hlt)]
      rfl

/-- Each move of the safe move at the end of a tool change can be made exactly. -/
def LandsExactly (check : Check K) (m : Machine K) (name : Option String) : Prop :=
  ∀ m₁ targets, m.changeTool check name = (m₁, none) →
    targetsOf true m₁.printer m.getPosition = some targets →
    (m₁.printer.commandedPos :: targets).IsChain MovesExactly

/-- A move keeps the rotation letter of the tools. -/
theorem Went.letter {q : Printer K} {newpos mpos : List K}
    (h : Went p newpos mpos q) {letter : RLetter} (htr : p.transform = .pnp letter tool) :
    ∃ tool', q.transform = .pnp letter tool' := by
  obtain ⟨tr, hreq, htr'⟩ := h.asked
  rw [htr']
  cases request_asks hreq with
  | toolhead hp => cases htr.symm.trans hp
  | untooled hp | nozzle hp _ _ | camera hp _ _ =>
    cases htr.symm.trans hp
    exact ⟨_, rfl⟩

/-- A safe move that the tool head can make exactly is read back. -/
theorem position_of_safeMove [IsStrictOrderedRing K] {q : Printer K} {newpos : List K} {speed : K}
    (hc : p.commandedPos.length = p.axes.length) (hlen : newpos.length = p.axes.length)
    (hexact : ∀ targets, targetsOf true p newpos = some targets →
      (p.commandedPos :: targets).IsChain MovesExactly)
    {letter : RLetter} (htr : p.transform = .pnp letter tool)
    (h : safeMove check p newpos speed = (q, none)) :
    q.positionWithTransform = newpos ∧ q.registeredAxes = p.registeredAxes ∧
      ∃ tool', q.transform = .pnp letter tool' := by
  by_cases hnozzle : HasNozzle p
  · obtain ⟨p₁, p₂, m₁, m₂, m₃, hop⟩ := hopped_of_safeMove hc hlen h hnozzle
    have hfollowed := hop.followed hc hlen (hexact _ (hop.targetsOf hnozzle))
    exact ⟨hop.down.position hfollowed.ends,
      hop.down.axes.trans (hop.across.axes.trans hop.up.axes),
      hop.down.letter (hop.transform₂.trans htr)⟩
  · obtain ⟨mpos, hwent⟩ := went_of_safeMove hc hlen h hnozzle
    obtain ⟨tr, hreq, -⟩ := hwent.asked
    have htargets : targetsOf true p newpos = some [mpos] := by
      rw [targetsOf_straight fun _ => hnozzle, hreq]
      rfl
    have hchain := hexact _ htargets
    have hfollowed := hwent.followed hc hlen (isChain_cons_cons.mp hchain).1
    exact ⟨hwent.position hfollowed.ends, hwent.axes, hwent.letter htr⟩

/-- **THE POSITION LIST STAYS**, coordinate by coordinate, and the rotation axis
    is its last one or where it was. -/
theorem Steady.selectTool_position [IsStrictOrderedRing K] (h : Steady m)
    (hR : some m.rGcodeLetter.1 ∈ m.printer.registeredAxes)
    (hdone : m.selectTool check name true = (m', none)) (hexact : LandsExactly check m name) :
    m'.getPosition = m.getPosition ∧ Steady m' ∧ RMoved m m' ∧
      m.extra.length ≤ m'.extra.length ∧ m'.rGcodeLetter = m.rGcodeLetter ∧
      ∃ tool, m'.printer.transform = .pnp m.rGcodeLetter tool := by
  have hsteady : Steady m' := by
    have hselect : Steady (m.selectTool check name true).1 := h.selectTool name true
    rwa [hdone] at hselect
  obtain ⟨m₁, hchange, hdone⟩ := andThen_ok hdone
  obtain ⟨m₂, hmove, hreset⟩ := andThen_ok hdone
  rw [if_pos rfl] at hmove
  obtain rfl := (Prod.mk.inj hreset).1
  obtain ⟨h₁, hmoved, hletter, ⟨tool, htr⟩, hfewer⟩ := h.changeTool_axes hR hchange
  have hland := on_ok hmove
  have hm₂ : m₂ = { m₁ with printer := m₂.printer } := by
    rw [Machine.safeMove, Machine.on] at hmove
    rw [← (Prod.mk.inj hmove).1]
  -- with fewer axes the old position does not fit
  have hle : m.extra.length ≤ m₁.extra.length := by
    by_contra hlt
    obtain ⟨letter, tool, htr⟩ := hfewer (Nat.lt_of_not_le hlt)
    rw [Pnp.safeMove, htr] at hland
    dsimp only at hland
    have hlong : m₁.printer.positionWithTransform.length < m.getPosition.length := by
      rw [h.length_getPosition, h.length_axes]
      show m₁.getPosition.length < _
      rw [h₁.length_getPosition, h₁.length_axes]
      omega
    rw [toolSafeMove, overlay_too_long hlong] at hland
    cases (Prod.mk.inj hland).2
  have heq : m₁.extra.length = m.extra.length := by
    cases hmoved with
    | fewer hlt => omega
    | last i id hi _ hextra _ =>
      have hlt := (List.getElem?_eq_some_iff.mp hi).1
      rw [hextra, length_append, length_eraseIdx_of_lt hlt]
      show m.extra.length - 1 + 1 = _
      omega
    | same _ hextra _ => rw [hextra]
  have hlen : m.getPosition.length = m₁.printer.axes.length := by
    rw [h.length_getPosition, h.length_axes, h₁.length_axes, heq]
  obtain ⟨hposition, hregistered, htr'⟩ := position_of_safeMove h₁.consistent.sized.commanded hlen
    (fun targets htargets => hexact m₁ targets hchange htargets) htr hland
  rw [hm₂] at hsteady ⊢
  refine ⟨hposition, hsteady, ?_, hle, hletter, htr'⟩
  cases hmoved with
  | fewer hlt => exact .fewer hlt
  | last i id hi hid hextra hreg => exact .last i id hi hid hextra (hregistered.trans hreg)
  | same hid hextra hreg => exact .same hid hextra (hregistered.trans hreg)

end Change

/-! ## The work position -/

/-- X, Y, Z and the rotation are what they were, and every other axis behind them
    is where it was. -/
structure KeepsWork (m m' : Machine K) : Prop where
  xyz : m'.getPosition.take 3 = m.getPosition.take 3
  rotation : (m'.rIndex.bind fun i => m'.getPosition[i]?) = m.rIndex.bind fun i => m.getPosition[i]?
  extruder : m'.printer.commandedPos[3]? = m.printer.commandedPos[3]?
  others : ∀ j id, m.extra[j]? = some id → (m.axes id).gcodeId ≠ some m.rGcodeLetter.1 →
    ∃ k, m'.extra[k]? = some id ∧ m'.printer.commandedPos[4 + k]? = m.printer.commandedPos[4 + j]?

/-- The rotation axis is the last one, or all axes behind it are where it is.
    This is asked only if the axis bound last has the rotation letter. -/
def RotationLast (m : Machine K) : Prop :=
  (m.axes m.boundR).gcodeId = some m.rGcodeLetter.1 →
    ∀ i, m.rIndex = some i → ∀ j, i ≤ j → j < m.getPosition.length →
      m.getPosition[j]? = m.getPosition[i]?

/-- A tool changes X, Y and Z and the rotation only. -/
theorem getElem?_positionWithTransform {letter : RLetter}
    (htr : p.transform = .pnp letter tool) {k : Nat} (hk : 3 ≤ k) (hr : p.rIndex letter ≠ some k)
    (hc : p.commandedPos.length = p.axes.length) :
    p.positionWithTransform[k]? = p.commandedPos[k]? := by
  have h₀ : 0 ≠ k := by omega
  have h₁ : 1 ≠ k := by omega
  have h₂ : 2 ≠ k := by omega
  rw [Printer.positionWithTransform, htr]
  rcases tool with _ | ⟨trig, tool⟩ | cam
  · rfl
  · simp only [Nozzle.machineToGcode, getElem?_set_ne h₀, getElem?_set_ne h₁, getElem?_set_ne h₂]
  · cases hidx : p.rIndex letter with
    | none =>
      simp only [hidx, Camera.getPosition, Camera.machineToGcode,
        getElem?_set_ne h₀, getElem?_set_ne h₁,
        getElem?_set_ne h₂]
    | some i =>
      have hik : i ≠ k := fun he => hr (he ▸ hidx)
      have hlt := rIndex_lt p hidx
      -- there is a coordinate for the rotation, so none is appended
      have hpad : i + 1 - p.commandedPos.length = 0 := by omega
      simp only [hidx, Camera.getPosition, Camera.machineToGcode,
        length_set, hpad, replicate_zero, append_nil,
        getElem?_set_ne h₀, getElem?_set_ne h₁,
        getElem?_set_ne h₂, getElem?_set_ne hik]

/-- The place of a registered letter. -/
theorem Consistent.rIndex_of_registered (h : Consistent m)
    (hi : m.printer.registeredAxes[i]? = some (some m.rGcodeLetter.1)) : m.rIndex = some (4 + i) :=
  get_axisMap h.nodup h.valid ((getElem?_axes m.printer i).trans hi)

/-- The commanded position of an axis that is not the rotation axis. -/
theorem Steady.commandedPos_of_other (h : Steady m)
    (htr : m.printer.transform = .pnp m.rGcodeLetter tool) {k : Nat}
    (hk : 3 ≤ k) (hr : m.rIndex ≠ some k) : m.printer.commandedPos[k]? = m.getPosition[k]? :=
  (getElem?_positionWithTransform htr hk hr h.consistent.sized.commanded).symm

/-- The extruder and every axis with another letter are not the rotation axis. -/
theorem Steady.rIndex_ne (h : Steady m) :
    m.rIndex ≠ some 3 ∧ ∀ j id, m.extra[j]? = some id →
      (m.axes id).gcodeId ≠ some m.rGcodeLetter.1 → m.rIndex ≠ some (4 + j) := by
  have hne : ∀ {l : String} {k : Nat}, Dict.get m.printer.axisMap l = some k →
      l ≠ m.rGcodeLetter.1 → m.rIndex ≠ some k := by
    intro l k hl hne hr
    exact hne (axisMap_inj m.printer (Dict.mem_of_get hl) (Dict.mem_of_get hr))
  refine ⟨?_, fun j id hj hid => ?_⟩
  · refine hne (h.axesAgree.first 3 "E" rfl) fun he => m.rGcodeLetter.2 ?_
    rw [← he]
    decide
  · obtain ⟨letter, hletter, -, hget⟩ := h.axesAgree.axisMap j id hj
    exact hne hget fun he => hid (he ▸ hletter)

omit [Field K] in
/-- Coordinates that are all those of their successors are all the same. -/
theorem getElem?_eq_of_succ {xs : List K} (h : ∀ j, i ≤ j → j + 1 < xs.length → xs[j]? = xs[j + 1]?)
    (hij : i ≤ j) : j < xs.length → xs[j]? = xs[i]? := by
  induction j, hij using Nat.le_induction with
  | base => exact fun _ => rfl
  | succ j hij ih =>
    intro hlt
    rw [← h j hij hlt]
    exact ih (Nat.lt_of_succ_lt hlt)

/-- Where the axes are after one has gone to the end: those before it stay, those
    behind it move up. -/
theorem getElem?_moved {α : Type} {xs : List α} (hi : i < xs.length)
    (x : α) (hj : j < xs.length) (hne : j ≠ i) :
    (xs.eraseIdx i ++ [x])[if j < i then j else j - 1]? = xs[j]? := by
  have hlen := length_eraseIdx_of_lt hi
  split
  · rename_i hlt
    rw [getElem?_append_left (by omega), getElem?_eraseIdx, if_pos hlt]
  · rename_i hge
    have hsub : ¬ j - 1 < i := by omega
    rw [getElem?_append_left (by omega), getElem?_eraseIdx, if_neg hsub]
    congr 1
    omega

section Keeps

variable (h : Steady m) (h' : Steady m') {tool tool' : Option (Tool K)}
  (htr : m.printer.transform = .pnp m.rGcodeLetter tool)
  (htr' : m'.printer.transform = .pnp m'.rGcodeLetter tool')
  (hposition : m'.getPosition = m.getPosition)
  (hletter : m'.rGcodeLetter = m.rGcodeLetter)

include h h' htr htr' hposition hletter

/-- If the axes stay where they are, everything else does. -/
theorem keepsWork_of_same (hextra : m'.extra = m.extra)
    (hregistered : m'.printer.registeredAxes = m.printer.registeredAxes) : KeepsWork m m' := by
  have hr : m'.rIndex = m.rIndex := by
    rw [Machine.rIndex, Machine.rIndex, hletter]
    exact rIndex_congr hregistered m.rGcodeLetter
  have hother : ∀ k, 3 ≤ k → m.rIndex ≠ some k →
      m'.printer.commandedPos[k]? = m.printer.commandedPos[k]? := by
    intro k hk hne
    rw [h'.commandedPos_of_other htr' hk (hr ▸ hne), h.commandedPos_of_other htr hk hne, hposition]
  refine ⟨by rw [hposition], by rw [hposition, hr], ?_, ?_⟩
  · exact hother 3 (le_refl 3) h.rIndex_ne.1
  · intro j id hj hid
    exact ⟨j, hextra ▸ hj, hother (4 + j) (by omega) (h.rIndex_ne.2 j id hj hid)⟩

section Last

variable {i : Nat} {id : AxisId} (hi : m.extra[i]? = some m.boundR)
  (hbound : (m.axes m.boundR).gcodeId = some m.rGcodeLetter.1)
  (hextra : m'.extra = m.extra.eraseIdx i ++ [id])
  (hregistered : m'.printer.registeredAxes
    = m.printer.registeredAxes.eraseIdx i ++ [some m.rGcodeLetter.1])

include hi hbound hextra hregistered

omit htr htr' hposition hextra in
/-- The places of the rotation axis. -/
theorem rIndex_of_last : m.rIndex = some (4 + i) ∧ m'.rIndex = some (4 + (m.extra.length - 1)) := by
  have hlt := (List.getElem?_eq_some_iff.mp hi).1
  have hregLen := h.consistent.length_registered
  refine ⟨h.consistent.rIndex_of_registered ?_, h'.consistent.rIndex_of_registered ?_⟩
  · rw [h.consistent.registered, List.getElem?_map, hi, map_some, hbound]
  · have herase : (m.printer.registeredAxes.eraseIdx i).length = m.extra.length - 1 := by
      rw [List.length_eraseIdx_of_lt (by omega), hregLen]
    rw [hregistered, hletter, ← herase, List.getElem?_concat_length]

omit htr in
/-- An axis behind the rotation axis takes the coordinate of the place before its own. -/
theorem place_of_last {id' : AxisId} (hj : m.extra[j]? = some id')
    (hid : (m.axes id').gcodeId ≠ some m.rGcodeLetter.1) :
    j ≠ i ∧ m'.extra[if j < i then j else j - 1]? = some id' ∧
    m'.printer.commandedPos[4 + if j < i then j else j - 1]?
      = m.getPosition[4 + if j < i then j else j - 1]? := by
  have hlt := (List.getElem?_eq_some_iff.mp hi).1
  have hjlt := (List.getElem?_eq_some_iff.mp hj).1
  have hr' := (rIndex_of_last h h' hletter hi hbound hregistered).2
  have hne : j ≠ i := by
    rintro rfl
    exact hid ((some.inj (hj.symm.trans hi)) ▸ hbound)
  refine ⟨hne, ?_, ?_⟩
  · rw [hextra, getElem?_moved hlt id hjlt hne, hj]
  · rw [← hposition]
    refine h'.commandedPos_of_other htr' (by omega) ?_
    rw [hr']
    intro he
    have hk := some.inj he
    split at hk
    · omega
    · omega

omit hextra hregistered h' htr htr' hposition hletter in
/-- The other axes have other letters. -/
theorem other_of_last (hj : j < m.extra.length) (hne : j ≠ i) :
    (m.axes m.extra[j]).gcodeId ≠ some m.rGcodeLetter.1 := by
  intro he
  have hsame : m.printer.registeredAxes[j]? = m.printer.registeredAxes[i]? := by
    rw [h.consistent.registered, getElem?_map, getElem?_map,
      getElem?_eq_getElem hj, hi, map_some, map_some, he,
      hbound]
  have hj' : j < m.printer.registeredAxes.length := by
    rw [h.consistent.length_registered]
    exact hj
  exact hne ((getElem?_inj hj' h.consistent.nodup).mp hsame)

/-- Axes that keep their positions are where their successors are. -/
theorem rotationLast_of_keepsWork (hkeeps : KeepsWork m m') : RotationLast m := by
  have hlen := h.length_axes
  have hpos := h.length_getPosition
  intro _ i' hi' k hik hk
  have hr := (rIndex_of_last h h' hletter hi hbound hregistered).1
  obtain rfl := some.inj (hr.symm.trans hi')
  refine getElem?_eq_of_succ (fun k hik hk => ?_) hik hk
  -- the axis whose place is the next one
  obtain ⟨j, hjk⟩ : ∃ j, k + 1 = 4 + j := ⟨k + 1 - 4, by omega⟩
  have hjlt : j < m.extra.length := by omega
  have hj : m.extra[j]? = some m.extra[j] := List.getElem?_eq_getElem hjlt
  have hid := other_of_last h hi hbound hjlt (by omega)
  obtain ⟨k', hk', hkept⟩ := hkeeps.others j _ hj hid
  obtain ⟨-, hplace, hcoord⟩ := place_of_last h h' htr' hposition hletter hi
    hbound hextra hregistered hj hid
  have hk'lt := (List.getElem?_eq_some_iff.mp hk').1
  obtain rfl := (List.getElem?_inj hk'lt h'.consistent.nodup_extra).mp (hk'.trans hplace.symm)
  rw [hcoord, h.commandedPos_of_other htr (by omega)
    (h.rIndex_ne.2 j _ hj hid), if_neg (by omega)] at hkept
  have hprev : k = 4 + (j - 1) := by omega
  rw [hjk, hprev]
  exact hkept

theorem keepsWork_of_rotationLast (hlast : RotationLast m) : KeepsWork m m' := by
  have hlen := h.length_axes
  have hpos := h.length_getPosition
  have hlt := (List.getElem?_eq_some_iff.mp hi).1
  obtain ⟨hr, hr'⟩ := rIndex_of_last h h' hletter hi hbound hregistered
  have hsame := hlast hbound (4 + i) hr
  refine ⟨by rw [hposition], ?_, ?_, fun j id' hj hid => ?_⟩
  · rw [hr, hr', hposition]
    exact hsame _ (by omega) (by omega)
  · rw [h'.commandedPos_of_other htr' (le_refl 3) h'.rIndex_ne.1,
      h.commandedPos_of_other htr (le_refl 3) h.rIndex_ne.1, hposition]
  · obtain ⟨hne, hplace, hcoord⟩ := place_of_last h h' htr' hposition hletter hi
      hbound hextra hregistered hj hid
    have hjlt := (List.getElem?_eq_some_iff.mp hj).1
    refine ⟨_, hplace, ?_⟩
    rw [hcoord, h.commandedPos_of_other htr (by omega) (h.rIndex_ne.2 j id' hj hid)]
    split
    · rfl
    · rw [hsame (4 + (j - 1)) (by omega) (by omega), hsame (4 + j) (by omega) (by omega)]

end Last

end Keeps

/-- **PNP_TOOL MOVE=1 KEEPS THE WORK POSITION** exactly if no axis behind the rotation axis is
    elsewhere: for every set and order of the axes, every tool and the next. -/
theorem selectTool_keepsWork_iff [LinearOrder K] [IsStrictOrderedRing K]
    {check : Check K} {name : Option String} (h : Steady m) {tool : Option (Tool K)}
    (htr : m.printer.transform = .pnp m.rGcodeLetter tool)
    (hR : some m.rGcodeLetter.1 ∈ m.printer.registeredAxes)
    (hdone : m.selectTool check name true = (m', none)) (hexact : LandsExactly check m name) :
    KeepsWork m m' ↔ RotationLast m := by
  obtain ⟨hposition, h', hmoved, hle, hletter, tool', htr'⟩ := h.selectTool_position hR hdone hexact
  rw [← hletter] at htr'
  cases hmoved with
  | fewer hlt => exact absurd hlt (Nat.not_lt.mpr hle)
  | last i id hi hbound hextra hregistered =>
    refine ⟨?_, ?_⟩
    · exact rotationLast_of_keepsWork h h' htr htr' hposition hletter hi hbound hextra hregistered
    · exact keepsWork_of_rotationLast h h' htr htr' hposition hletter hi hbound hextra hregistered
  | same hbound hextra hregistered =>
    exact iff_of_true (keepsWork_of_same h h' htr htr' hposition hletter hextra
      hregistered) fun he => absurd he hbound

/-! ## Two tool changes -/

/-- A machine with one nozzle, whose rotation stepper is the first one. -/
def toolMachine (pos : Coords ℚ) : Machine ℚ :=
  .ready ⟨"R", r_free⟩ pos [("N", ⟨tiltedNozzle, .manualStepper 0, some 0, 1⟩)] (fun _ => 0) 0 0

/-- With no other axis the work position is kept. -/
theorem selectTool_keepsWork_alone : ∃ m',
    (toolMachine ⟨1, 2, -3, 4, 5⟩).selectTool noCheck (some "N") true = (m', none)
    ∧ KeepsWork (toolMachine ⟨1, 2, -3, 4, 5⟩) m' := by
  have hsteady : Steady (toolMachine ⟨1, 2, -3, 4, 5⟩) := steady_ready (by decide) _ _ _ _ _
  have herr : ((toolMachine ⟨1, 2, -3, 4, 5⟩).selectTool noCheck (some "N")
      true).2 = none := by decide +kernel
  refine ⟨_, Prod.ext rfl herr, ?_⟩
  refine (selectTool_keepsWork_iff hsteady rfl mem_cons_self (Prod.ext rfl herr) ?_).mpr ?_
  · intro m₁ targets hchange htargets
    have hm₁ : m₁.printer.commandedPos = [1, 2, 0, 4, 0] ∧
        targetsOf true m₁.printer (toolMachine ⟨1, 2, -3, 4, 5⟩).getPosition
          = some [[1, 2, 0, 4, 0], [-247 / 30, -1327 / 60, 0, 4, 5],
            [-449 / 60, -1237 / 60, -3, 4, 5]] := by
      obtain rfl : _ = m₁ := congrArg Prod.fst hchange
      decide +kernel
    obtain rfl := some.inj (htargets.symm.trans hm₁.2)
    rw [hm₁.1]
    simp only [isChain_cons_cons]
    exact ⟨.inl (by decide +kernel), .inr (by decide +kernel),
      .inr (by decide +kernel), List.IsChain.singleton _⟩
  · intro _ i hi j hij hj
    have hr : (toolMachine ⟨1, 2, -3, 4, 5⟩).rIndex = some 4 := by decide +kernel
    obtain rfl := some.inj (hr.symm.trans hi)
    have hj' : j < 5 := hj
    obtain rfl : j = 4 := by omega
    rfl

/-- The command `G1 A7`. -/
def g1A7 : Gcmd ℚ := ⟨"G1 A7", traditionalParams "G" (numberArg "1" 1) [("A", numberArg "7" 7)]⟩

/-- An axis `A` registered behind the rotation axis goes where that was, and the rotation axis
    where `A` was. -/
theorem selectTool_swaps_axes : ∃ m m',
    (toolMachine ⟨0, 0, 0, 0, 0⟩).run [(noCheck, .manualStepper 1 "A"),
      (noCheck, .gcode (.g1 g1A7))] = some m ∧
    m.selectTool noCheck (some "N") true = (m', none) ∧
    (m.rIndex, m.getPosition) = (some 4, [0, 0, 0, 0, 0, 7]) ∧
    (m'.rIndex, m'.getPosition) = (some 5, [0, 0, 0, 0, 0, 7]) ∧ ¬ KeepsWork m m' := by
  obtain ⟨m, hm, herr, hbefore, hafter⟩ : ∃ m,
      (toolMachine ⟨0, 0, 0, 0, 0⟩).run [(noCheck, .manualStepper 1 "A"),
        (noCheck, .gcode (.g1 g1A7))] = some m ∧
      (m.selectTool noCheck (some "N") true).2 = none ∧
      (m.rIndex, m.getPosition) = (some 4, [0, 0, 0, 0, 0, 7]) ∧
      ((m.selectTool noCheck (some "N") true).1.rIndex,
        (m.selectTool noCheck (some "N") true).1.getPosition) = (some 5, [0, 0, 0, 0, 0, 7]) :=
    Result.exists_some_of_any (by decide +kernel)
  refine ⟨m, _, hm, Prod.ext rfl herr, hbefore, hafter, fun hkeeps => ?_⟩
  obtain ⟨hr, hpos⟩ := Prod.mk.inj hbefore
  obtain ⟨hr', hpos'⟩ := Prod.mk.inj hafter
  have hrotation := hkeeps.rotation
  rw [hr, hpos, hr', hpos'] at hrotation
  exact absurd (some.inj hrotation) (by decide)

end Pnp
