import Pick.GcodePositionProofs

/-! # Commands keep the number of coordinates

`WellFormed` asks of the saved records, too, that they fit the axes.  While
axes come and go they need not, and this file shows what holds all the same:
a command keeps the length of the position lists, provided that a record it
restores has that length. -/

namespace GcodeMove

open Attempt ListHeap

variable {K : Type} [Field K]

variable {p : Printer K} {heap : Heap K}

/-! ## Steps of a command -/

/-- From a printer with lists of the right length, `q` has such lists and the same axes. -/
def Keeps (p q : Printer K) : Prop := Sized p → Sized q ∧ q.registeredAxes = p.registeredAxes

theorem Keeps.refl (p : Printer K) : Keeps p p := fun h => ⟨h, rfl⟩

theorem Keeps.trans {q r : Printer K} (h₁ : Keeps p q) (h₂ : Keeps q r) : Keeps p r := by
  intro hp
  obtain ⟨hq, hpq⟩ := h₁ hp
  obtain ⟨hr, hqr⟩ := h₂ hq
  exact ⟨hr, hqr.trans hpq⟩

theorem keeps_withHeap (hx : Extends p.heap heap) : Keeps p { p with heap := heap } :=
  fun h => ⟨h.withHeap hx, rfl⟩

theorem keeps_reset (p : Printer K) : Keeps p p.resetLastPosition := fun h => ⟨h.reset, rfl⟩

theorem keeps_andThen {r : Result K} {f : Printer K → Result K} (h : Keeps p r.1)
    (hf : ∀ q, r = (q, none) → q.axes.length = p.axes.length →
      Keeps q (f q).1) : Keeps p (andThen r f).1 := by
  intro hp
  obtain ⟨q, _ | e⟩ := r
  · have haxes : q.axes.length = p.axes.length := by rw [length_axes, length_axes, (h hp).2]
    exact h.trans (hf q rfl haxes) hp
  · exact h hp

/-! ## Moves -/

section Moves

theorem moveWalk_keeps : MoveWalk (Keeps (K := K)) where
  refl := Keeps.refl
  trans := Keeps.trans
  tool _ _ h := ⟨{ h with }, rfl⟩
  goes _ _ _ hlen h := ⟨{ h with commanded := hlen h.commanded }, rfl⟩
  reset := keeps_reset

variable [LinearOrder K] {check : Check K} {p : Printer K} {speed : K}

/-- A move to the last position. -/
theorem keeps_moveLast : Keeps p (moveWithTransform check p p.last speed).1 :=
  fun hp => moveWalk_keeps.moveWithTransform hp.last.2.le hp

end Moves

/-! ## Commands -/

section Commands

variable [LinearOrder K] {check : Check K} {p : Printer K}

theorem walk_keeps : Walk (fun _ => True) (fun _ => True)
    (fun p state => state.HasLength p.heap p.axes.length) (Keeps (K := K)) where
  refl := Keeps.refl
  trans := Keeps.trans
  writeLast _ _ _ := keeps_withHeap (extends_setItem ..)
  writeBase _ _ _ _ := keeps_withHeap (extends_setItem ..)
  writeHoming _ _ _ := keeps_withHeap (extends_setItem ..)
  baseIsLast _ h := ⟨{ h with base := h.last }, rfl⟩
  settings _ _ _ _ _ h := ⟨{ h with }, rfl⟩
  extrude _ _ _ _ h := ⟨{ h with }, rfl⟩
  moveLast _ _ _ := keeps_moveLast
  save p _ _ h :=
    have hx := ((extends_alloc p.heap p.base).trans
      (extends_alloc _ p.last)).trans (extends_alloc _ p.homing)
    ⟨{ h.withHeap hx with }, rfl⟩
  restore _ hs h := ⟨h.restoreFields hs, rfl⟩
  restoreXyz _ hs h := ⟨h.withHeap (h.extends_restoreXyz hs), rfl⟩
  stillFits h := (h.of_extends (extends_alloc ..)).of_extends (extends_setItem ..)

/-- The record a command restores fits the axes there are. -/
def Command.RestoresFitting (p : Printer K) (c : Command K) : Prop :=
  ∀ gcmd state, c = .restoreGcodeState gcmd → Dict.get p.savedStates gcmd.getName = some state →
    state.HasLength p.heap p.axes.length

/-- **COMMANDS KEEP THE NUMBER OF COORDINATES**, with or without an error. -/
theorem keeps_handle {c : Command K} (hc : c.RestoresFitting p) : Keeps p (handle check p c).1 :=
  walk_handle walk_keeps ⟨fun _ => trivial, fun _ _ => trivial⟩ hc

end Commands

end GcodeMove

/-! # Commands reach the tool head through moves

A command changes the position lists of the G-code layer as it likes, but
the tool head, its axes and the active tool only by `move_with_transform`.
So what every move keeps, and what the position lists have no part in, every
command keeps. -/

namespace GcodeMove

open Attempt ListHeap

variable {K : Type} [Field K] [LinearOrder K]

/-- A property of the tool head, its axes and the active tool that every move
    keeps, with or without an error. -/
structure Lasting (P : Printer K → Prop) : Prop where
  frame : ∀ {p q : Printer K}, P p → q.transform = p.transform →
    q.commandedPos = p.commandedPos → q.registeredAxes = p.registeredAxes → P q
  move : ∀ (check : Check K) {p : Printer K} (newpos : List K) (speed : K),
    P p → P (moveWithTransform check p newpos speed).1

namespace Lasting

variable {P : Printer K → Prop} (hP : Lasting P) {check : Check K}
  {p : Printer K}

include hP

theorem walk : Walk (fun _ => True) (fun _ => True) (fun _ _ => True) (fun p q => P p → P q) where
  refl _ := id
  trans h₁ h₂ h := h₂ (h₁ h)
  writeLast _ _ _ h := hP.frame h rfl rfl rfl
  writeBase _ _ _ _ h := hP.frame h rfl rfl rfl
  writeHoming _ _ _ h := hP.frame h rfl rfl rfl
  baseIsLast _ h := hP.frame h rfl rfl rfl
  settings _ _ _ _ _ h := hP.frame h rfl rfl rfl
  extrude _ _ _ _ h := hP.frame h rfl rfl rfl
  moveLast check p speed := hP.move check p.last speed
  save _ _ _ h := hP.frame h rfl rfl rfl
  restore _ _ h := hP.frame h rfl rfl rfl
  restoreXyz _ _ h := hP.frame h rfl rfl rfl
  stillFits := id

/-- **A COMMAND KEEPS WHAT EVERY MOVE KEEPS**, with or without an error. -/
theorem handle (c : Command K) (h : P p) : P (GcodeMove.handle check p c).1 :=
  walk_handle hP.walk ⟨fun _ => trivial, fun _ _ => trivial⟩ (fun _ _ _ _ => trivial) h

end Lasting

end GcodeMove
