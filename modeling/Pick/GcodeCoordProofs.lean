import Pick.GcodeMoveProofs

/-! # The coordinate commands keep their lists in order

Every coordinate command is a sequence of elementary changes of the
printer: a write into one of the three lists, a new list for one of the
names, a record saved or read.  What a command preserves follows from what
these changes preserve. -/

namespace GcodeMove

open Attempt Dict List ListHeap Option Pnptool

variable {K : Type}

/-! ## The axis map -/

/-- `addAxes` appends axes, each at a place of its own. -/
theorem addAxes_spec (extraAxes : List (Option String)) :
    ∀ (index : Nat) (m : List (String × Nat)), (∀ e ∈ m, e.2 < index) →
      (m.map Prod.snd).Nodup → (keys m).Nodup → m <+: addAxes index extraAxes m ∧
      (∀ e ∈ addAxes index extraAxes m, e.2 < index + extraAxes.length) ∧
      ((addAxes index extraAxes m).map Prod.snd).Nodup ∧
      (keys (addAxes index extraAxes m)).Nodup := by
  intro index m hlt hnd hkeys
  have hsucc : ∀ {index : Nat} {m : List (String × Nat)}, (∀ e ∈ m, e.2 < index) →
      ∀ e ∈ m, e.2 < index + 1 := fun hlt e he => Nat.lt_succ_of_lt (hlt e he)
  fun_induction addAxes index extraAxes m with
  | case1 => exact ⟨prefix_refl _, hlt, hnd, hkeys⟩
  | case2 index extraAxes m ih | case3 index gcodeId extraAxes m hold ih =>
    rw [length_cons, add_comm extraAxes.length, ← add_assoc]
    exact ih (hsucc hlt) hnd hkeys
  | case4 index gcodeId extraAxes m hnew ih =>
    have hnone : Dict.get m gcodeId = none := by
      rw [not_or, isSome_iff_ne_none, not_not] at hnew
      exact hnew.1
    have hkeys' := keys_set_nodup hkeys gcodeId index
    rw [length_cons, add_comm extraAxes.length, ← add_assoc]
    rw [set_of_get_none index hnone] at hkeys' ih ⊢
    have hnd' : ((m ++ [(gcodeId, index)]).map Prod.snd).Nodup := by
      rw [map_append]
      refine nodup_append_comm.mp (nodup_cons.mpr ⟨fun hi => ?_, hnd⟩)
      obtain ⟨e, he, heq⟩ := mem_map.mp hi
      exact absurd heq (hlt e he).ne
    obtain ⟨hpre, hrest⟩ := ih (forall_mem_append.mpr
      ⟨hsucc hlt, forall_mem_singleton.mpr (Nat.lt_succ_self index)⟩) hnd' hkeys'
    exact ⟨(prefix_append m _).trans hpre, hrest⟩

section AxisMap

variable [Field K] (p : Printer K)

theorem length_axes : p.axes.length = 4 + p.registeredAxes.length := by
  simp only [Printer.axes, Printer.extraAxes, length_append, length_cons, length_nil]
  omega

theorem axisMap_spec :
    [("X", 0), ("Y", 1), ("Z", 2), ("E", 3)] <+: p.axisMap ∧
    (∀ e ∈ p.axisMap, e.2 < p.axes.length) ∧
    (p.axisMap.map Prod.snd).Nodup ∧ (keys p.axisMap).Nodup := by
  -- the extruder is in the map already
  have h := addAxes_spec p.registeredAxes 4
    [("X", 0), ("Y", 1), ("Z", 2), ("E", 3)] (by decide) (by decide)
    (by decide)
  rw [← length_axes p] at h
  exact h

variable {i : Nat}

/-- Two letters of the map have different places. -/
theorem axisMap_inj {a b : String} (ha : (a, i) ∈ p.axisMap)
    (hb : (b, i) ∈ p.axisMap) : a = b :=
  (Prod.mk.inj (inj_on_of_nodup_map (axisMap_spec p).2.2.1 ha hb rfl)).1

theorem mem_axisMap {e : String × Nat}
    (h : e ∈ [("X", 0), ("Y", 1), ("Z", 2), ("E", 3)]) : e ∈ p.axisMap :=
  (axisMap_spec p).1.subset h

theorem rIndex_congr {p q : Printer K}
    (h : q.registeredAxes = p.registeredAxes) (letter : RLetter) :
    q.rIndex letter = p.rIndex letter := by
  simp only [Printer.rIndex, Printer.axisMap, Printer.extraAxes, h]

variable {letter : RLetter}

/-- The rotation axis is behind X, Y and Z. -/
theorem le_rIndex {rIdx : Nat} (h : p.rIndex letter = some rIdx) : 3 ≤ rIdx := by
  have hmem := mem_of_get h
  by_contra hlt
  have hxyz : ∀ i < 3, ∃ a ∈ ["X", "Y", "Z", "E", "F", "N"],
      (a, i) ∈ [("X", 0), ("Y", 1), ("Z", 2), ("E", 3)] := by decide
  obtain ⟨a, ha, hat⟩ := hxyz rIdx (not_le.mp hlt)
  exact letter.2 (axisMap_inj p hmem (mem_axisMap p hat) ▸ ha)

theorem rIndex_lt {rIdx : Nat}
    (h : p.rIndex letter = some rIdx) : rIdx < p.axes.length :=
  (axisMap_spec p).2.1 _ (mem_of_get h)

end AxisMap

/-! ## What a result says -/

section Results

variable [Field K] {p q : Printer K} {v : K}

/-- Reading items and then writing one changes the heap only. -/
theorem writeItem_ok {r : Ref} (h : writeItem p r i v = (q, none)) :
    q = { p with heap := setItem p.heap r i v } := by
  rw [writeItem] at h
  split at h
  · exact (Prod.mk.inj h).1.symm
  · cases (Prod.mk.inj h).2

theorem readItem_ok {r : Ref} {f : K → Result K} (h : readItem p r i f = (q, none)) :
    ∃ v, (deref p.heap r)[i]? = some v ∧ f v = (q, none) := by
  rw [readItem] at h
  split at h
  · cases (Prod.mk.inj h).2
  · rename_i v hv
    exact ⟨v, hv, h⟩

variable {R : Printer K → Printer K → Prop}

theorem walk_andThen {r : Result K} {f : Printer K → Result K}
    (htrans : ∀ {p q r}, R p q → R q r → R p r) (h : R p r.1)
    (hf : ∀ q, r = (q, none) → R q (f q).1) : R p (andThen r f).1 :=
  andThen_invariant h fun q hq hR => htrans hR (hf q hq)

theorem walk_withArg {α : Type} {x : Except Error α} {f : α → Result K}
    (hrefl : ∀ p, R p p) (hf : ∀ v, x = .ok v → R p (f v).1) : R p (withArg p x f).1 := by
  cases x with
  | error e => exact hrefl p
  | ok v => exact hf v rfl

theorem walk_readItem {r : Ref} {f : K → Result K}
    (hrefl : ∀ p, R p p) (hf : ∀ v, R p (f v).1) : R p (readItem p r i f).1 := by
  rw [readItem]
  split
  · exact hrefl p
  · exact hf _

theorem walk_writeItem {r : Ref} (hrefl : ∀ p, R p p)
    (h : R p { p with heap := setItem p.heap r i v }) : R p (writeItem p r i v).1 := by
  rw [writeItem]
  split
  · exact h
  · exact hrefl p

/-- The parameter is given. -/
def Gcmd.Has (gcmd : Gcmd K) (name : String) : Prop := (Dict.get gcmd.params name).isSome

/-- Commands that write X, Y or Z of the base position in place. -/
def Command.WritesXyz : Command K → Prop
  | .g92 gcmd => ∃ axis ∈ ["X", "Y", "Z"], gcmd.Has axis
  | .setGcodeOffset gcmd => ∃ axis ∈ ["X", "Y", "Z"], gcmd.Has axis ∨ gcmd.Has (axis ++ "_ADJUST")
  | _ => False

omit [Field K] in
theorem has_of_getFloat {gcmd : Gcmd K} {name : String}
    (h : gcmd.getFloat name = .ok (some v)) : gcmd.Has name := by
  rw [Gcmd.getFloat, Gcmd.get] at h
  rw [Gcmd.Has]
  split at h
  · cases h
  · rename_i value hget
    rw [hget]
    rfl

theorem axes_lt_three (p : Printer K) {j : Nat} {axis : Option String}
    (h : p.axes[j]? = some axis) (hj : j < 3) : ∃ a ∈ ["X", "Y", "Z"], axis = some a := by
  match j with
  | 0 => exact ⟨"X", by decide, (some.inj h).symm⟩
  | 1 => exact ⟨"Y", by decide, (some.inj h).symm⟩
  | 2 => exact ⟨"Z", by decide, (some.inj h).symm⟩

/-- The values of a comprehension that raises nowhere, place by place. -/
theorem getElem?_of_mapM {α β ε : Type} {f : α → Except ε β} {xs : List α}
    {ys : List β} (h : xs.mapM f = .ok ys) {j : Nat} {y : β}
    (hy : ys[j]? = some y) : ∃ x, xs[j]? = some x ∧ f x = .ok y := by
  induction xs generalizing ys j with
  | nil =>
    obtain rfl : [] = ys := Except.ok.inj h
    cases hy
  | cons x xs ih =>
    rw [mapM_cons] at h
    obtain ⟨z, hx, h⟩ := Result.bind_eq_ok h
    obtain ⟨zs, hxs, h⟩ := Result.bind_eq_ok h
    obtain rfl : z :: zs = ys := Except.ok.inj h
    cases j with
    | zero => exact ⟨x, rfl, (some.inj hy) ▸ hx⟩
    | succ j => exact ih hxs hy

variable {pos : Nat}

theorem has_of_offsetArg {gcmd : Gcmd K} {axis : String}
    (h : offsetArg gcmd p pos (some axis) = .ok (some v)) :
    gcmd.Has axis ∨ gcmd.Has (axis ++ "_ADJUST") := by
  rw [offsetArg] at h
  split at h
  · cases h
  · rename_i offset hget
    exact .inl (has_of_getFloat hget)
  · split at h
    · cases h
    · cases h
    · rename_i offset hget
      exact .inr (has_of_getFloat hget)

/-- An axis of `cmd_SET_GCODE_OFFSET` leaves the base position the same list. -/
theorem offsetAxis_ok {offset : K} (h : offsetAxis pos offset p = (q, none)) :
    q.basePosition = p.basePosition := by
  obtain ⟨hp, -, h⟩ := readItem_ok h
  obtain ⟨bp, -, h⟩ := readItem_ok h
  obtain ⟨r, hr, h⟩ := andThen_ok h
  rw [writeItem_ok h, writeItem_ok hr]

end Results

/-! ## Well-formed printers -/

section WellFormed

variable [Field K] [LinearOrder K]

/-- The lists exist and every position has one coordinate for each axis. -/
structure Sized (p : Printer K) : Prop where
  base : HasLength p.heap p.axes.length p.basePosition
  last : HasLength p.heap p.axes.length p.lastPosition
  homing : HasLength p.heap p.axes.length p.homingPosition
  commanded : p.commandedPos.length = p.axes.length

/-- The lists of a record have this many coordinates. -/
def SavedState.HasLength (heap : Heap K) (n : Nat) (state : SavedState K) : Prop :=
  ListHeap.HasLength heap n state.basePosition ∧
  ListHeap.HasLength heap n state.lastPosition ∧
  ListHeap.HasLength heap n state.homingPosition

/-- The records fit, too, and no factor is zero. -/
structure WellFormed (p : Printer K) : Prop extends Sized p where
  extrudeFactor : 0 < p.extrudeFactor
  saved : ∀ n state, Dict.get p.savedStates n = some state →
    state.HasLength p.heap p.axes.length ∧ 0 < state.extrudeFactor

/-- The elementary changes of a printer.  X, Y and Z of the base position are written only if `B`
    allows it for the list, and records are saved only under names that `N` allows. -/
inductive Micro (B : Ref → Prop) (N : String → Prop) : Printer K → Printer K → Prop where
  | writeLast (p : Printer K) (i : Nat) (v : K) :
      Micro B N p { p with heap := setItem p.heap p.lastPosition i v }
  | writeBase (p : Printer K) (i : Nat) (v : K) (h : i < 3 → B p.basePosition) :
      Micro B N p { p with heap := setItem p.heap p.basePosition i v }
  | writeHoming (p : Printer K) (i : Nat) (v : K) :
      Micro B N p { p with heap := setItem p.heap p.homingPosition i v }
  | restoreXyz (p : Printer K) (n : String) (state : SavedState K)
      (h : Dict.get p.savedStates n = some state) :
      Micro B N p (restoreXyz state p)
  | reset (p : Printer K) : Micro B N p p.resetLastPosition
  | baseIsLast (p : Printer K) : Micro B N p { p with basePosition := p.lastPosition }
  | save (p : Printer K) (gcmd : Gcmd K) (h : N gcmd.getName) :
      Micro B N p (cmdSaveGcodeState gcmd p).1
  | restore (p : Printer K) (n : String) (state : SavedState K)
      (h : Dict.get p.savedStates n = some state) :
      Micro B N p (restoreFields state p)
  | scalars (p : Printer K) (absoluteCoord absoluteExtrude : Bool)
      (speed speedFactor extrudeFactor : K) (commandedPos : List K)
      (moves : List (List K × List K)) (transform : Transform K)
      (he : 0 < extrudeFactor)
      (hc : commandedPos.length = p.commandedPos.length) :
      Micro B N p { p with
        absoluteCoord := absoluteCoord
        absoluteExtrude := absoluteExtrude
        speed := speed
        speedFactor := speedFactor
        extrudeFactor := extrudeFactor
        commandedPos := commandedPos
        moves := moves
        transform := transform }

variable {p q : Printer K}

omit [LinearOrder K] in
/-- The position read back has one coordinate for each axis. -/
theorem length_positionWithTransform (h : p.commandedPos.length = p.axes.length) :
    p.positionWithTransform.length = p.axes.length := by
  rw [Printer.positionWithTransform]
  split
  · exact h
  · exact h
  · rw [Nozzle.length_machineToGcode, h]
  · rename_i letter cam _
    cases hr : p.rIndex letter with
    | none => simp [Camera.getPosition, Camera.machineToGcode, h]
    | some rIdx => rw [Camera.length_getPosition cam (h ▸ rIndex_lt p hr), h]

section Sized

omit [LinearOrder K]

variable {heap : Heap K} {state : SavedState K}

omit [Field K] in
theorem SavedState.HasLength.of_extends {heap' : Heap K} {n : Nat} (h : state.HasLength heap n)
    (hx : Extends heap heap') : state.HasLength heap' n :=
  ⟨h.1.of_extends hx, h.2.1.of_extends hx, h.2.2.of_extends hx⟩

theorem Sized.withHeap (h : Sized p) (hx : Extends p.heap heap) : Sized { p with heap := heap } :=
  ⟨h.base.of_extends hx, h.last.of_extends hx, h.homing.of_extends hx, h.commanded⟩

theorem Sized.reset (h : Sized p) : Sized p.resetLastPosition :=
  { h.withHeap (extends_alloc p.heap p.positionWithTransform) with
    last := hasLength_alloc (length_positionWithTransform h.commanded) }

/-- The assignments of a record that fits. -/
theorem Sized.restoreFields (h : Sized p) (hs : state.HasLength p.heap p.axes.length) :
    Sized (restoreFields state p) :=
  have hx := extends_alloc p.heap (deref p.heap state.homingPosition)
  { h.withHeap hx with
    base := hs.1.of_extends hx
    homing := hasLength_alloc hs.2.2.2 }

/-- X, Y and Z of a record replace as many coordinates. -/
theorem Sized.extends_restoreXyz (h : Sized p) (hs : state.HasLength p.heap p.axes.length) :
    Extends p.heap (restoreXyz state p).heap := by
  refine extends_set ?_
  have hlen := hs.2.1.2
  have hlast : p.last.length = p.axes.length := h.last.2
  have hax := length_axes p
  show _ = p.last.length
  rw [length_append, length_take, length_drop]
  omega

end Sized

/-- A write in place keeps a printer well-formed. -/
theorem WellFormed.withHeap (h : WellFormed p) {heap : Heap K} (hx : Extends p.heap heap) :
    WellFormed { p with heap := heap } :=
  { h.toSized.withHeap hx with
    extrudeFactor := h.extrudeFactor
    saved := fun n state hs => (h.saved n state hs).imp_left (·.of_extends hx) }

theorem WellFormed.reset (h : WellFormed p) : WellFormed p.resetLastPosition :=
  { h.withHeap (extends_alloc p.heap p.positionWithTransform) with last := h.toSized.reset.last }

theorem WellFormed.restoreFields (h : WellFormed p) {n : String} {state : SavedState K}
    (hs : Dict.get p.savedStates n = some state) : WellFormed (restoreFields state p) :=
  { h.toSized.restoreFields (h.saved n state hs).1,
    h.withHeap (extends_alloc p.heap (deref p.heap state.homingPosition)) with
    extrudeFactor := (h.saved n state hs).2 }

/-- A record saved now holds positions. -/
theorem WellFormed.save (h : WellFormed p) (gcmd : Gcmd K) :
    WellFormed (cmdSaveGcodeState gcmd p).1 := by
  have hx₁ := extends_alloc p.heap p.base
  have hx₂ := extends_alloc (alloc p.heap p.base) p.last
  have hx₃ := extends_alloc (alloc (alloc p.heap p.base) p.last) p.homing
  have hx := (hx₁.trans hx₂).trans hx₃
  refine { h.withHeap hx with saved := ?_ }
  intro n state hs
  by_cases hn : gcmd.getName = n
  · subst hn
    have hstate := some.inj ((get_set_self ..).symm.trans hs)
    subst hstate
    have hlast := hasLength_alloc (h := alloc p.heap p.base) h.last.2
    have hhoming := hasLength_alloc (h := alloc (alloc p.heap p.base) p.last) h.homing.2
    rw [length_alloc] at hlast hhoming
    rw [length_alloc] at hhoming
    exact ⟨⟨((hasLength_alloc h.base.2).of_extends hx₂).of_extends hx₃,
      hlast.of_extends hx₃, hhoming⟩, h.extrudeFactor⟩
  · exact (h.withHeap hx).saved n state ((get_set_ne _ _ hn).symm.trans hs)

variable {B : Ref → Prop} {N : String → Prop}

/-- One elementary change keeps a printer well-formed. -/
theorem Micro.wellFormed (hm : Micro B N p q) (h : WellFormed p) : WellFormed q := by
  cases hm with
  | writeLast i v | writeBase i v _ | writeHoming i v => exact h.withHeap (extends_setItem ..)
  | restoreXyz n state hs => exact h.withHeap (h.extends_restoreXyz (h.saved n state hs).1)
  | reset => exact h.reset
  | baseIsLast => exact { h with base := h.last }
  | save gcmd _ => exact h.save gcmd
  | restore n state hs => exact h.restoreFields hs
  | scalars _ _ _ _ _ _ _ _ he hc =>
    exact { h with commanded := hc.trans h.commanded, extrudeFactor := he }

theorem wellFormed_of_micros (hm : Relation.ReflTransGen (Micro B N) p q) (h : WellFormed p) :
    WellFormed q := by
  induction hm with
  | refl => exact h
  | tail _ hstep ih => exact hstep.wellFormed ih

/-! ## What commands are made of -/

/-- A relation that holds for the elementary changes a command makes, one after the other, in
    which a record is restored only if it fits by `F`. -/
structure Walk (B : Ref → Prop) (N : String → Prop)
    (F : Printer K → SavedState K → Prop) (R : Printer K → Printer K → Prop) : Prop where
  refl : ∀ p, R p p
  trans : ∀ {p q r}, R p q → R q r → R p r
  writeLast : ∀ p i v, R p { p with heap := setItem p.heap p.lastPosition i v }
  writeBase : ∀ p i v, (i < 3 → B p.basePosition) →
    R p { p with heap := setItem p.heap p.basePosition i v }
  writeHoming : ∀ p i v, R p { p with heap := setItem p.heap p.homingPosition i v }
  baseIsLast : ∀ p, R p { p with basePosition := p.lastPosition }
  settings : ∀ p coord extrude speed factor, R p { p with
    absoluteCoord := coord
    absoluteExtrude := extrude
    speed := speed
    speedFactor := factor }
  extrude : ∀ p (gcmd : Gcmd K) s, gcmd.getFloatAbove "S" 100 = .ok s →
    R p { p with extrudeFactor := s / 100 }
  moveLast : ∀ check p speed, R p (moveWithTransform check p p.last speed).1
  save : ∀ p (gcmd : Gcmd K), N gcmd.getName → R p (cmdSaveGcodeState gcmd p).1
  restore : ∀ {p n state}, Dict.get p.savedStates n = some state → F p state →
    R p (restoreFields state p)
  restoreXyz : ∀ {p n state}, Dict.get p.savedStates n = some state → F p state →
    R p (restoreXyz state p)
  stillFits : ∀ {p state r i v}, F p state → F { restoreFields state p with
    heap := setItem (restoreFields state p).heap r i v } state

variable {r : Result K}

section Walk

variable {F : Printer K → SavedState K → Prop} {R : Printer K → Printer K → Prop}
  (w : Walk B N F R) {p : Printer K} {check : Check K} {gcmd : Gcmd K}

include w

theorem walk_g1Axis (gcmd : Gcmd K) (axis : String) (pos : Nat) (p : Printer K) :
    R p (g1Axis gcmd axis pos p).1 := by
  rw [g1Axis]
  split
  · exact w.refl p
  · split
    · exact w.refl p
    · dsimp only
      -- either way one item of the last position is written
      generalize (if axis = "E" ∧ p.absoluteExtrude = false then false
        else p.absoluteCoord) = absoluteCoord
      split
      · exact walk_readItem w.refl fun lp => walk_writeItem w.refl (w.writeLast p pos _)
      · exact walk_readItem w.refl fun bp => walk_writeItem w.refl (w.writeLast p pos _)

theorem walk_g1Axes (gcmd : Gcmd K) (axes : List (String × Nat)) :
    ∀ p : Printer K, R p (g1Axes gcmd axes p).1 := by
  induction axes with
  | nil => exact w.refl
  | cons e axes ih =>
    intro p
    exact walk_andThen w.trans (walk_g1Axis w gcmd e.1 e.2 p) fun q _ => ih q

/-- `cmd_G92` writes the base position where an axis is given. -/
theorem walk_g92Axes (offsets : List (Option K)) :
    ∀ (i : Nat) (p : Printer K),
      (∀ j v, offsets[j]? = some (some v) → i + j < 3 → B p.basePosition) →
      R p (g92Axes i offsets p).1 := by
  induction offsets with
  | nil => exact fun i p _ => w.refl p
  | cons offset offsets ih =>
    intro i p hB
    have hrest : ∀ j v, offsets[j]? = some (some v) → i + 1 + j < 3 → B p.basePosition := by
      intro j v hv hj
      refine hB (j + 1) v ?_ (by omega)
      rw [getElem?_cons_succ]
      exact hv
    cases offset with
    | none => exact ih (i + 1) p hrest
    | some v =>
      refine walk_andThen w.trans ?_ fun q hq => ?_
      · exact walk_readItem w.refl fun _ =>
          walk_writeItem w.refl (w.writeBase _ _ _ fun hi => hB 0 v rfl hi)
      · obtain ⟨lp, -, hw⟩ := readItem_ok hq
        rw [writeItem_ok hw]
        exact ih (i + 1) _ hrest

theorem walk_cmdG92 (hB : (Command.g92 gcmd).WritesXyz → B p.basePosition) :
    R p (cmdG92 gcmd p).1 := by
  refine walk_withArg w.refl fun offsets hoffsets => ?_
  refine walk_andThen w.trans (walk_g92Axes w offsets 0 p ?_) fun q _ => ?_
  · intro j v hv hj
    obtain ⟨axis, haxis, hf⟩ := getElem?_of_mapM hoffsets hv
    obtain ⟨a, ha, rfl⟩ := axes_lt_three p haxis (by omega)
    exact hB ⟨a, ha, has_of_getFloat hf⟩
  · split
    · exact w.baseIsLast q
    · exact w.refl q

theorem walk_g1Speed (gcmd : Gcmd K) (p : Printer K) : R p (g1Speed gcmd p).1 := by
  rw [g1Speed]
  split
  · exact w.refl p
  · split
    · exact w.refl p
    · split
      · exact w.refl p
      · exact w.settings p _ _ _ _

theorem walk_cmdG1 (check : Check K) (gcmd : Gcmd K) (p : Printer K) : R p (cmdG1 check gcmd p).1 :=
  walk_andThen w.trans (walk_g1Axes w gcmd p.axisMap p) fun q _ =>
    walk_andThen w.trans (walk_g1Speed w gcmd q) fun r _ => w.moveLast check r _

theorem walk_offsetAxis {offset : K} (hB : pos < 3 → B p.basePosition) :
    R p (offsetAxis pos offset p).1 := by
  refine walk_readItem w.refl fun hp => walk_readItem w.refl fun bp => ?_
  refine walk_andThen w.trans ?_ fun q _ => ?_
  · exact walk_writeItem w.refl (w.writeBase p pos _ hB)
  · exact walk_writeItem w.refl (w.writeHoming q pos _)

/-- The loop of `cmd_SET_GCODE_OFFSET` writes the base position where an axis is given. -/
theorem walk_offsetAxes (gcmd : Gcmd K) (axes : List (Option String)) :
    ∀ (pos : Nat) (p : Printer K),
      (∀ j axis, axes[j]? = some (some axis) → pos + j < 3 →
        gcmd.Has axis ∨ gcmd.Has (axis ++ "_ADJUST") → B p.basePosition) →
      R p (offsetAxes gcmd pos axes p).2.1 := by
  induction axes with
  | nil => exact fun pos p _ => w.refl p
  | cons axis axes ih =>
    intro pos p hB
    have hrest : ∀ j a, axes[j]? = some (some a) → pos + 1 + j < 3 →
        gcmd.Has a ∨ gcmd.Has (a ++ "_ADJUST") → B p.basePosition := by
      intro j a ha hj
      refine hB (j + 1) a ?_ (by omega)
      rw [getElem?_cons_succ]
      exact ha
    rw [offsetAxes]
    split
    · exact w.refl p
    · exact ih (pos + 1) p hrest
    · rename_i offset harg
      -- only an axis with a letter yields an offset
      have hpos : pos < 3 → B p.basePosition := by
        intro hlt
        cases axis with
        | none => cases harg
        | some a => exact hB 0 a rfl hlt (has_of_offsetArg harg)
      have haxis : R p (offsetAxis pos offset p).1 := walk_offsetAxis w hpos
      split
      · rename_i q e hq
        rw [hq] at haxis
        exact haxis
      · rename_i q hq
        rw [hq] at haxis
        refine w.trans haxis (ih (pos + 1) q ?_)
        rw [offsetAxis_ok hq]
        exact hrest

theorem walk_addDeltas (moveDelta : List K) :
    ∀ (pos : Nat) (p : Printer K), R p (addDeltas pos moveDelta p).1 := by
  induction moveDelta with
  | nil => exact fun pos p => w.refl p
  | cons delta moveDelta ih =>
    intro pos p
    refine walk_andThen w.trans ?_ fun q _ => ih (pos + 1) q
    exact walk_readItem w.refl fun lp => walk_writeItem w.refl (w.writeLast p pos _)

theorem walk_cmdSetGcodeOffset (hB : (Command.setGcodeOffset gcmd).WritesXyz → B p.basePosition) :
    R p (cmdSetGcodeOffset check gcmd p).1 := by
  refine walk_andThen w.trans (walk_offsetAxes w gcmd p.axes 0 p ?_) fun q _ => ?_
  · intro j axis haxis hj hhas
    obtain ⟨a, ha, hax⟩ := axes_lt_three p haxis (by omega)
    cases hax
    exact hB ⟨axis, ha, hhas⟩
  · refine walk_withArg w.refl fun move _ => ?_
    split
    · exact w.refl q
    · refine walk_withArg w.refl fun speed _ => ?_
      exact walk_andThen w.trans (walk_addDeltas w _ 0 q) fun r _ => w.moveLast check r speed

theorem walk_cmdM221 (gcmd : Gcmd K) (p : Printer K) : R p (cmdM221 gcmd p).1 := by
  refine walk_withArg w.refl fun s hs => ?_
  refine walk_readItem w.refl fun lastE => walk_readItem w.refl fun baseE => ?_
  refine walk_andThen w.trans ?_ fun q _ => w.extrude q gcmd s hs
  exact walk_writeItem w.refl (w.writeBase p 3 _ fun h => absurd h (by decide))

theorem walk_cmdRestoreGcodeState (check : Check K) (gcmd : Gcmd K) (p : Printer K)
    (hF : ∀ state, Dict.get p.savedStates gcmd.getName = some state → F p state) :
    R p (cmdRestoreGcodeState check gcmd p).1 := by
  rw [cmdRestoreGcodeState]
  split
  · exact w.refl p
  · rename_i state hs
    refine w.trans (w.restore hs (hF state hs)) (walk_andThen w.trans ?_ fun q hq => ?_)
    · refine walk_readItem w.refl fun lastE => walk_readItem w.refl fun savedE => ?_
      refine walk_readItem w.refl fun baseE => ?_
      exact walk_writeItem w.refl (w.writeBase _ 3 _ fun h => absurd h (by decide))
    · -- the record is still there for the move, and fits
      obtain ⟨lastE, -, hq⟩ := readItem_ok hq
      obtain ⟨savedE, -, hq⟩ := readItem_ok hq
      obtain ⟨baseE, -, hq⟩ := readItem_ok hq
      obtain rfl := writeItem_ok hq
      refine walk_withArg w.refl fun move _ => ?_
      split
      · exact w.refl _
      · refine walk_withArg w.refl fun speed _ => ?_
        exact w.trans (w.restoreXyz hs (w.stillFits (hF state hs))) (w.moveLast check _ _)

end Walk

/-- What a command saves and writes is allowed. -/
def Command.Allowed (B : Ref → Prop) (N : String → Prop) (p : Printer K) (c : Command K) : Prop :=
  (c.WritesXyz → B p.basePosition) ∧ ∀ gcmd, c = .saveGcodeState gcmd → N gcmd.getName

variable {check : Check K} {c : Command K}

/-- **COMMANDS ARE WALKS**, with or without an error. -/
theorem walk_handle {F : Printer K → SavedState K → Prop}
    {R : Printer K → Printer K → Prop} (w : Walk B N F R) (h : c.Allowed B N p)
    (hF : ∀ gcmd state, c = .restoreGcodeState gcmd →
      Dict.get p.savedStates gcmd.getName = some state → F p state) :
    R p (handle check p c).1 := by
  cases c with
  | g1 gcmd => exact walk_cmdG1 w check gcmd p
  | g20 | g21 => exact w.refl p
  | m82 | m83 | g90 | g91 => exact w.settings p _ _ _ _
  | g92 gcmd => exact walk_cmdG92 w h.1
  | m220 gcmd => exact walk_withArg w.refl fun s _ => w.settings p _ _ _ _
  | m221 gcmd => exact walk_cmdM221 w gcmd p
  | setGcodeOffset gcmd => exact walk_cmdSetGcodeOffset w h.1
  | saveGcodeState gcmd => exact w.save p gcmd (h.2 gcmd rfl)
  | restoreGcodeState gcmd =>
    exact walk_cmdRestoreGcodeState w check gcmd p fun state => hF gcmd state rfl

/-! ## What moves are made of -/

/-- **ALL THAT A MOVE OF THE TOOL HEAD CAN DO.**  A move that is short in X, Y and Z keeps them. -/
inductive Heads (p : Printer K) (newpos : List K) : Result K → Prop where
  | stays (hshort : moveD2 p.commandedPos newpos < minMoveD2)
      (hzero : ((axesD p.commandedPos newpos).drop 3).all (· = 0)) :
      Heads p newpos (p, none)
  | refused (e : Error) : Heads p newpos (p, some e)
  | goes {endPos : List K} (hend : endPos = newpos ∨
        moveD2 p.commandedPos newpos < minMoveD2 ∧ endPos = p.commandedPos.take 3 ++ newpos.drop 3)
      (hlong : p.axes.length ≤ p.commandedPos.length ∧ p.axes.length ≤ endPos.length) :
      Heads p newpos ({ p with
        commandedPos := endPos
        moves := p.moves ++ [(p.commandedPos, endPos)] }, none)

theorem toolheadMove_heads {p : Printer K} {newpos : List K} {speed : K}
    (h : toolheadMove check p newpos speed = r) : Heads p newpos r := by
  subst h
  have hqueue : ∀ endPos : List K, endPos = newpos ∨
      moveD2 p.commandedPos newpos < minMoveD2 ∧ endPos = p.commandedPos.take 3 ++ newpos.drop 3 →
      Heads p newpos (queueMove check p endPos speed) := by
    intro endPos hend
    rw [queueMove]
    split
    · exact .refused _
    · split
      · exact .refused _
      · rename_i hlong
        rw [axesD, length_zipWith] at hlong
        exact .goes hend (by omega)
  rw [toolheadMove]
  split
  · rename_i hshort
    split
    · rename_i hzero
      exact .stays hshort hzero
    · exact hqueue _ (.inr ⟨hshort, rfl⟩)
  · exact hqueue _ (.inl rfl)

/-- A relation that holds for the changes a move makes, one after the other.  The
    tool head goes to places with a coordinate for each axis only. -/
structure MoveWalk (R : Printer K → Printer K → Prop) : Prop where
  refl : ∀ p, R p p
  trans : ∀ {p q r}, R p q → R q r → R p r
  tool : ∀ p transform, R p { p with transform := transform }
  goes : ∀ p endPos moves, (p.commandedPos.length = p.axes.length → endPos.length = p.axes.length) →
    R p { p with commandedPos := endPos, moves := moves }
  reset : ∀ p : Printer K, R p p.resetLastPosition

section MoveWalk

variable {R : Printer K → Printer K → Prop} {check : Check K} {p : Printer K}
  {newpos : List K} {speed : K}

theorem MoveWalk.toolheadMove (w : MoveWalk R) (hlen : newpos.length ≤ p.axes.length) :
    R p (toolheadMove check p newpos speed).1 := by
  generalize h : GcodeMove.toolheadMove check p newpos speed = r
  cases toolheadMove_heads h with
  | stays _ _ => exact w.refl p
  | refused e => exact w.refl p
  | goes hend hlong =>
    refine w.goes p _ _ fun hc => ?_
    have hax := length_axes p
    rcases hend with rfl | ⟨-, rfl⟩
    · exact hlen.antisymm hlong.2
    · rw [length_append, length_take, length_drop] at hlong ⊢
      omega

omit [LinearOrder K] in
theorem MoveWalk.andReset (w : MoveWalk R) (h : R p r.1) :
    R p (andThen r fun p => (p.resetLastPosition, none)).1 :=
  walk_andThen w.trans h fun q _ => w.reset q

theorem MoveWalk.toolMove (w : MoveWalk R) {tool : Tool K}
    (hlen : newpos.length ≤ p.axes.length) : R p (toolMove check letter tool p newpos speed).1 := by
  cases tool with
  | nozzle trig tool =>
    rw [GcodeMove.toolMove]
    split
    · exact w.refl p
    · rename_i mpos hm
      refine w.andReset (w.toolheadMove ?_)
      rw [Nozzle.length_gcodeToMachine trig tool hm]
      exact hlen
  | camera cam =>
    rw [GcodeMove.toolMove]
    split
    · exact w.refl p
    · rename_i cam' mpos hm
      refine w.trans (w.tool p _) (w.andReset (w.toolheadMove ?_))
      exact (Camera.length_request cam hm).trans_le hlen

theorem MoveWalk.moveWithTransform (w : MoveWalk R) (hlen : newpos.length ≤ p.axes.length) :
    R p (moveWithTransform check p newpos speed).1 := by
  rw [GcodeMove.moveWithTransform]
  split
  · exact w.toolheadMove hlen
  · exact w.andReset (w.toolheadMove hlen)
  · exact w.andReset (w.toolMove hlen)

end MoveWalk

/-! ## Commands are made of elementary changes -/

/-- From a well-formed printer, `q` is reached by elementary changes. -/
def Reaches (B : Ref → Prop) (N : String → Prop) (p q : Printer K) : Prop :=
  WellFormed p → Relation.ReflTransGen (Micro B N) p q

theorem Reaches.refl (p : Printer K) : Reaches B N p p := fun _ => Relation.ReflTransGen.refl

theorem Reaches.trans {p q r : Printer K} (h₁ : Reaches B N p q)
    (h₂ : Reaches B N q r) : Reaches B N p r :=
  fun hp => (h₁ hp).trans (h₂ (wellFormed_of_micros (h₁ hp) hp))

theorem Micro.reaches (h : Micro B N p q) : Reaches B N p q :=
  fun _ => Relation.ReflTransGen.single h

theorem moveWalk_reaches : MoveWalk (Reaches (K := K) B N) where
  refl := Reaches.refl
  trans := Reaches.trans
  tool p _ hp := .single (.scalars p _ _ _ _ _ _ _ _ hp.extrudeFactor rfl)
  goes p _ _ hlen hp := .single (.scalars p _ _ _ _ _ _ _ _ hp.extrudeFactor
    ((hlen hp.commanded).trans hp.commanded.symm))
  reset p := (Micro.reset p).reaches

/-- A move to the last position. -/
theorem reaches_moveLast {speed : K} : Reaches B N p (moveWithTransform check p p.last speed).1 :=
  fun hp => moveWalk_reaches.moveWithTransform hp.last.2.le hp

theorem pos_of_getFloatAbove {gcmd : Gcmd K} {name : String} {default v : K}
    (hd : 0 < default) (h : gcmd.getFloatAbove name default = .ok v) : 0 < v := by
  rw [Gcmd.getFloatAbove] at h
  split at h
  · cases h
  · rw [← Except.ok.inj h]
    exact hd
  · split at h
    · cases h
    · rename_i hv
      rw [← Except.ok.inj h]
      exact not_le.mp hv

variable [IsStrictOrderedRing K]

theorem walk_reaches : Walk B N (fun _ _ => True) (Reaches (K := K) B N) where
  refl := Reaches.refl
  trans := Reaches.trans
  writeLast p i v := (Micro.writeLast p i v).reaches
  writeBase p i v h := (Micro.writeBase p i v h).reaches
  writeHoming p i v := (Micro.writeHoming p i v).reaches
  baseIsLast p := (Micro.baseIsLast p).reaches
  settings p _ _ _ _ hp := .single (.scalars p _ _ _ _ _ _ _ _ hp.extrudeFactor rfl)
  extrude p gcmd s hs := (Micro.scalars p _ _ _ _ _ _ _ _
    (div_pos (pos_of_getFloatAbove (by norm_num) hs) (by norm_num)) rfl).reaches
  moveLast _ _ _ := reaches_moveLast
  save p gcmd h := (Micro.save p gcmd h).reaches
  restore hs _ := (Micro.restore _ _ _ hs).reaches
  restoreXyz hs _ := (Micro.restoreXyz _ _ _ hs).reaches
  stillFits := id

omit [IsStrictOrderedRing K] in
theorem dispatch_of_ok (h : handle check p c = (q, none)) : dispatch check p c = some q := by
  rw [dispatch, h]

theorem reaches_dispatch (h : c.Allowed B N p) (hd : dispatch check p c = some q) :
    Reaches B N p q := by
  have hreach : Reaches B N p (handle check p c).1 :=
    walk_handle walk_reaches h fun _ _ _ _ => trivial
  rw [dispatch] at hd
  split at hd
  · rename_i r hr
    rw [hr] at hreach
    exact some.inj hd ▸ hreach
  · rename_i r msg hr
    rw [hr] at hreach
    exact some.inj hd ▸ hreach.trans (Micro.reset r).reaches
  · cases hd

/-! ## Runs -/

/-- A printer that gets ready is well-formed. -/
theorem wellFormed_ready {registeredAxes : List (Option String)}
    {commandedPos : List K} {transform : Transform K}
    (h : commandedPos.length = 4 + registeredAxes.length) :
    WellFormed (Printer.ready registeredAxes commandedPos transform) := by
  have hlen := length_axes (Printer.ready registeredAxes commandedPos transform)
  have hzeros : (List.replicate (4 + registeredAxes.length) (0 : K)).length
      = 4 + registeredAxes.length := length_replicate
  refine ⟨⟨⟨show 0 < 4 by decide, ?_⟩, ?_, ⟨show 2 < 4 by decide, ?_⟩,
    h.trans hlen.symm⟩, zero_lt_one, nofun⟩
  · rw [hlen]
    exact hzeros
  · exact hasLength_alloc (length_positionWithTransform (h.trans hlen.symm))
  · rw [hlen]
    exact hzeros

/-- One command of a run; the checks of its moves may be any. -/
def Step (p q : Printer K) : Prop := ∃ check c, dispatch check p c = some q

/-- **RUNS KEEP THE LISTS IN ORDER**: after any commands, with errors or not, the printer is
    well-formed. -/
theorem wellFormed_of_run (hrun : Relation.ReflTransGen Step p q) (h : WellFormed p) :
    WellFormed q := by
  induction hrun with
  | refl => exact h
  | tail _ hstep ih =>
    obtain ⟨check, c, hd⟩ := hstep
    have hreach : Reaches (fun _ => True) (fun _ => True) _ _ :=
      reaches_dispatch ⟨fun _ => trivial, fun _ _ => trivial⟩ hd
    exact wellFormed_of_micros (hreach ih) ih

end WellFormed

end GcodeMove
