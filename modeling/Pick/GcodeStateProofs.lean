import Pick.GcodePositionProofs

/-! # Saved G-code states

`SAVE_GCODE_STATE` copies the position lists into a record and
`RESTORE_GCODE_STATE` copies the homing position back, but takes the base
position of the record as it is.  From then on the record and the printer
share a list: commands that write X, Y or Z of the base position in place
write the record too, and the next restore brings that back. -/

namespace GcodeMove

open Attempt ListHeap

variable {K : Type} [Field K]

/-! ## What becomes of a record -/

/-- The record `n` still holds this base position (X, Y and Z) and homing position, and only the
    base position of the printer may be one of its lists. -/
structure Kept (n : String) (state : SavedState K) (xyz homing : List K)
    (p : Printer K) : Prop where
  saved : Dict.get p.savedStates n = some state
  xyz : (deref p.heap state.basePosition).take 3 = xyz
  homing : deref p.heap state.homingPosition = homing
  last_ne_base : p.lastPosition ≠ state.basePosition
  last_ne_homing : p.lastPosition ≠ state.homingPosition
  homing_ne_base : p.homingPosition ≠ state.basePosition
  homing_ne_homing : p.homingPosition ≠ state.homingPosition
  base_ne_homing : p.basePosition ≠ state.homingPosition
  records : ∀ m other, Dict.get p.savedStates m = some other →
    other.basePosition ≠ state.homingPosition

variable {n : String} {state : SavedState K} {xyz homing : List K}
  {p q : Printer K}

section Kept

variable (h : Kept n state xyz homing p)
include h

/-- Changes of other lists keep a record. -/
theorem Kept.withHeap {heap : Heap K}
    (hb : (deref heap state.basePosition).take 3
      = (deref p.heap state.basePosition).take 3)
    (hh : deref heap state.homingPosition
      = deref p.heap state.homingPosition) :
    Kept n state xyz homing { p with heap := heap } :=
  { h with
    xyz := hb.trans h.xyz
    homing := hh.trans h.homing }

/-- Writing a list that is not one of the record's keeps the record. -/
theorem Kept.set {r : Ref} (hb : r ≠ state.basePosition) (hh : r ≠ state.homingPosition)
    (xs : List K) : Kept n state xyz homing { p with heap := p.heap.set r xs } := by
  refine h.withHeap ?_ (deref_set_ne hh _ _)
  rw [deref_set_ne hb]

/-- So does writing another item than X, Y or Z of its base position. -/
theorem Kept.setBase {i : Nat} {v : K} (hi : i < 3 → p.basePosition ≠ state.basePosition) :
    Kept n state xyz homing { p with heap := setItem p.heap p.basePosition i v } := by
  by_cases hb : p.basePosition = state.basePosition
  · have h3 : 3 ≤ i := not_lt.mp fun hlt => hi hlt hb
    refine h.withHeap ?_ (deref_setItem_ne h.base_ne_homing _ _ _)
    rw [hb]
    by_cases hlt : state.basePosition < p.heap.length
    · rw [deref_setItem_self hlt, List.take_set_of_le h3]
    · rw [setItem, List.set_eq_of_length_le (not_lt.mp hlt)]
  · exact h.set hb h.base_ne_homing _

/-- A new list keeps the record, whatever gets its reference. -/
theorem Kept.alloc (hb : state.basePosition < p.heap.length)
    (hh : state.homingPosition < p.heap.length) (xs : List K) :
    Kept n state xyz homing { p with heap := alloc p.heap xs } := by
  refine h.withHeap ?_ (deref_alloc_of_lt hh _)
  rw [deref_alloc_of_lt hb]

end Kept

variable [LinearOrder K]

/-- **ELEMENTARY CHANGES KEEP A RECORD** whose base position and name they spare. -/
theorem Micro.kept (hm : Micro (fun r => r ≠ state.basePosition) (fun m => m ≠ n) p q)
    (hwf : WellFormed p) (h : Kept n state xyz homing p) : Kept n state xyz homing q := by
  obtain ⟨⟨⟨hb, -⟩, -, hh, -⟩, -⟩ := hwf.saved n state h.saved
  cases hm with
  | writeLast i v | restoreXyz m other hs => exact h.set h.last_ne_base h.last_ne_homing _
  | writeBase i v hi => exact h.setBase hi
  | writeHoming i v => exact h.set h.homing_ne_base h.homing_ne_homing _
  | reset =>
    -- the new list is none of the old ones
    exact { h.alloc hb hh _ with
      last_ne_base := Nat.ne_of_gt hb
      last_ne_homing := Nat.ne_of_gt hh }
  | baseIsLast => exact { h with base_ne_homing := h.last_ne_homing }
  | save gcmd hn =>
    have hlt : ∀ {r : Ref} {heap : Heap K} (xs : List K),
        r < heap.length → r < (ListHeap.alloc heap xs).length := by
      intro r heap xs hr
      rw [length_alloc]
      exact Nat.lt_succ_of_lt hr
    have h₁ := h.alloc hb hh p.base
    have h₂ := h₁.alloc (hlt _ hb) (hlt _ hh) p.last
    have h₃ := h₂.alloc (hlt _ (hlt _ hb)) (hlt _ (hlt _ hh)) p.homing
    exact { h₃ with
      saved := (Dict.get_set_ne _ _ hn).trans h.saved
      records := by
        intro m other hs
        by_cases hm : gcmd.getName = m
        · subst hm
          rw [← Option.some.inj ((Dict.get_set_self ..).symm.trans hs)]
          exact Nat.ne_of_gt hh
        · exact h.records m other ((Dict.get_set_ne _ _ hm).symm.trans hs) }
  | restore m other hs =>
    exact { h.alloc hb hh _ with
      homing_ne_base := Nat.ne_of_gt hb
      homing_ne_homing := Nat.ne_of_gt hh
      base_ne_homing := h.records m other hs }
  | scalars _ _ _ _ _ _ _ _ _ _ => exact { h with }

/-- The record that `SAVE_GCODE_STATE` makes. -/
def savedState (p : Printer K) : SavedState K where
  absoluteCoord := p.absoluteCoord
  absoluteExtrude := p.absoluteExtrude
  basePosition := p.heap.length
  lastPosition := p.heap.length + 1
  homingPosition := p.heap.length + 2
  speed := p.speed
  speedFactor := p.speedFactor
  extrudeFactor := p.extrudeFactor

/-- A record saved now holds the positions of now, in lists of its own. -/
theorem kept_of_save (hwf : WellFormed p) (gcmd : Gcmd K) :
    Kept gcmd.getName (savedState p) (p.base.take 3) p.homing (cmdSaveGcodeState gcmd p).1 := by
  have hlen₁ := length_alloc p.heap p.base
  have hlen₂ := length_alloc (alloc p.heap p.base) p.last
  have hb := hwf.base.1
  have hl := hwf.last.1
  have hh := hwf.homing.1
  refine ⟨Dict.get_set_self .., ?_, ?_, Nat.ne_of_lt hl, ?_, Nat.ne_of_lt hh, ?_, ?_, ?_⟩
  · show (deref (alloc (alloc (alloc p.heap p.base) p.last) p.homing) p.heap.length).take 3 = _
    have hlt₁ : p.heap.length < (alloc p.heap p.base).length := by omega
    have hlt₂ : p.heap.length < (alloc (alloc p.heap p.base) p.last).length := by omega
    rw [deref_alloc_of_lt hlt₂, deref_alloc_of_lt hlt₁, deref_alloc_self]
  · show deref (alloc (alloc (alloc p.heap p.base) p.last) p.homing) (p.heap.length + 2) = _
    rw [hlen₁] at hlen₂
    rw [← hlen₂, deref_alloc_self]
  · exact Nat.ne_of_lt (Nat.lt_add_right 2 hl)
  · exact Nat.ne_of_lt (Nat.lt_add_right 2 hh)
  · exact Nat.ne_of_lt (Nat.lt_add_right 2 hb)
  · intro m other hs
    by_cases hm : gcmd.getName = m
    · subst hm
      rw [← Option.some.inj ((Dict.get_set_self ..).symm.trans hs)]
      exact Nat.ne_of_lt (Nat.lt_add_of_pos_right (by decide))
    · have hs' := (Dict.get_set_ne _ _ hm).symm.trans hs
      exact Nat.ne_of_lt (Nat.lt_add_right 2 (hwf.saved m other hs').1.1.1)

/-! ## Runs that spare a record -/

/-- The command saves nothing under the name, and writes X, Y or Z of the base position in
    another list only. -/
def Spares (n : String) (p : Printer K) (c : Command K) : Prop :=
  (∀ gcmd, c = .saveGcodeState gcmd → gcmd.getName ≠ n) ∧
    (c.WritesXyz → ∀ state, Dict.get p.savedStates n = some state →
      p.basePosition ≠ state.basePosition)

/-- One command of a run that spares the record. -/
def SparingStep (n : String) (p q : Printer K) : Prop :=
  ∃ check c, Spares n p c ∧ dispatch check p c = some q

theorem kept_of_micros
    (hm : Relation.ReflTransGen (Micro (fun r => r ≠ state.basePosition) (fun m => m ≠ n)) p q)
    (hwf : WellFormed p) (h : Kept n state xyz homing p) :
    WellFormed q ∧ Kept n state xyz homing q := by
  induction hm with
  | refl => exact ⟨hwf, h⟩
  | tail _ hstep ih => exact ⟨hstep.wellFormed ih.1, hstep.kept ih.1 ih.2⟩

variable [IsStrictOrderedRing K] in
/-- **SPARED RECORDS ARE KEPT** by every run. -/
theorem kept_of_run (hrun : Relation.ReflTransGen (SparingStep n) p q)
    (hwf : WellFormed p) (h : Kept n state xyz homing p) :
    WellFormed q ∧ Kept n state xyz homing q := by
  induction hrun with
  | refl => exact ⟨hwf, h⟩
  | tail _ hstep ih =>
    obtain ⟨check, c, ⟨hsave, hwrites⟩, hd⟩ := hstep
    have hreach : Reaches (fun r => r ≠ state.basePosition)
        (fun m => m ≠ n) _ _ :=
      reaches_dispatch ⟨fun hw => hwrites hw state ih.2.saved, hsave⟩ hd
    exact kept_of_micros (hreach ih.1) ih.1 ih.2

/-! ## Restoring -/

/-- What a restore brings back, the X, Y and Z of the base position apart. -/
structure Restored (state : SavedState K) (homing : List K) (q : Printer K) : Prop where
  basePosition : q.basePosition = state.basePosition
  homing : q.homing = homing
  absoluteCoord : q.absoluteCoord = state.absoluteCoord
  absoluteExtrude : q.absoluteExtrude = state.absoluteExtrude
  speed : q.speed = state.speed
  speedFactor : q.speedFactor = state.speedFactor
  extrudeFactor : q.extrudeFactor = state.extrudeFactor

/-- On the way there, the homing position is a list of its own. -/
structure Restoring (n : String) (state : SavedState K) (homing : List K)
    (q : Printer K) : Prop extends Restored state homing q where
  wellFormed : WellFormed q
  saved : Dict.get q.savedStates n = some state
  base_ne : q.basePosition ≠ q.homingPosition
  last_ne : q.lastPosition ≠ q.homingPosition

/-- Writing another list leaves a restored printer restored. -/
theorem Restoring.set (h : Restoring n state homing q) {r : Ref} {xs : List K}
    (hr : r ≠ q.homingPosition) (hwf : WellFormed { q with heap := q.heap.set r xs }) :
    Restoring n state homing { q with heap := q.heap.set r xs } :=
  { h with
    homing := (deref_set_ne hr _ _).trans h.homing
    wellFormed := hwf }

/-- A printer on the way stays on the way. -/
def StaysRestoring (n : String) (state : SavedState K) (homing : List K) (p q : Printer K) : Prop :=
  Restoring n state homing p → Restoring n state homing q

/-- Moves read their position back into a new list. -/
theorem moveWalk_staysRestoring (n : String) (state : SavedState K) (homing : List K) :
    MoveWalk (StaysRestoring n state homing) where
  refl _ := id
  trans h₁ h₂ h := h₂ (h₁ h)
  tool _ _ h := { h with wellFormed := { h.wellFormed with } }
  goes _ _ _ hlen h := { h with
    wellFormed := { h.wellFormed with commanded := hlen h.wellFormed.commanded } }
  reset _ h := { h with
    homing := (deref_alloc_of_lt h.wellFormed.homing.1 _).trans h.homing
    wellFormed := h.wellFormed.reset
    last_ne := Nat.ne_of_gt h.wellFormed.homing.1 }

theorem staysRestoring_andMove (check : Check K) (gcmd : Gcmd K) :
    StaysRestoring n state homing p
      (andThen (restoreE state p) (restoreMove check gcmd state)).1 := by
  have w := moveWalk_staysRestoring n state homing
  refine walk_andThen w.trans ?_ fun q _ => ?_
  · exact walk_readItem w.refl fun lastE => walk_readItem w.refl fun savedE =>
      walk_readItem w.refl fun baseE => walk_writeItem w.refl fun h =>
        h.set h.base_ne (h.wellFormed.withHeap (extends_setItem ..))
  · refine walk_withArg w.refl fun move _ => ?_
    split
    · exact w.refl q
    · refine walk_withArg w.refl fun speed _ h => ?_
      have hmicro : Micro (fun _ => True) (fun _ => True) q (restoreXyz state q) :=
        .restoreXyz q _ state h.saved
      have hxyz := h.set h.last_ne (hmicro.wellFormed h.wellFormed)
      exact w.moveWithTransform hxyz.wellFormed.last.2.le hxyz

/-- A restore brings back the record, whether the move after it is made or refused. -/
theorem restored_cmdRestoreGcodeState (hwf : WellFormed p) {gcmd : Gcmd K}
    (hs : Dict.get p.savedStates gcmd.getName = some state) (check : Check K) :
    Restored state (deref p.heap state.homingPosition) (cmdRestoreGcodeState check gcmd p).1 := by
  -- the copy of the homing position is a new list, so nothing else writes it
  have hfields : Restoring gcmd.getName state (deref p.heap state.homingPosition)
      (restoreFields state p) :=
    ⟨⟨rfl, deref_alloc_self .., rfl, rfl, rfl, rfl, rfl⟩, hwf.restoreFields hs, hs,
      Nat.ne_of_lt (hwf.saved _ state hs).1.1.1, Nat.ne_of_lt hwf.last.1⟩
  rw [cmdRestoreGcodeState, hs]
  exact (staysRestoring_andMove check gcmd hfields).toRestored

variable [IsStrictOrderedRing K]

/-- **SAVE AND RESTORE**: after a save and any commands that spare its record, a restore brings
    back X, Y and Z of the base, the homing position, the modes, the speed and the factors. -/
theorem restore_of_run {p₀ p₁ p : Printer K} {save restore : Gcmd K}
    (h₀ : WellFormed p₀) (hsave : cmdSaveGcodeState save p₀ = (p₁, none))
    (hrun : Relation.ReflTransGen (SparingStep save.getName) p₁ p)
    (hname : restore.getName = save.getName) (check : Check K) :
    (cmdRestoreGcodeState check restore p).1.base.take 3 = p₀.base.take 3 ∧
    (cmdRestoreGcodeState check restore p).1.homing = p₀.homing ∧
    (cmdRestoreGcodeState check restore p).1.absoluteCoord
      = p₀.absoluteCoord ∧
    (cmdRestoreGcodeState check restore p).1.absoluteExtrude
      = p₀.absoluteExtrude ∧
    (cmdRestoreGcodeState check restore p).1.speed = p₀.speed ∧
    (cmdRestoreGcodeState check restore p).1.speedFactor = p₀.speedFactor ∧
    (cmdRestoreGcodeState check restore p).1.extrudeFactor = p₀.extrudeFactor := by
  obtain rfl : (cmdSaveGcodeState save p₀).1 = p₁ := by rw [hsave]
  obtain ⟨hwf, hkept⟩ := kept_of_run hrun (h₀.save save) (kept_of_save h₀ save)
  have hrest := restored_cmdRestoreGcodeState hwf (hname.symm ▸ hkept.saved) check
  -- the restore itself spares the record
  have hreach : Reaches (fun r => r ≠ (savedState p₀).basePosition)
      (fun m => m ≠ save.getName) p (cmdRestoreGcodeState check restore p).1 :=
    walk_cmdRestoreGcodeState walk_reaches check restore p fun _ _ => trivial
  obtain ⟨-, hkept'⟩ := kept_of_micros (hreach hwf) hwf hkept
  refine ⟨?_, hrest.homing.trans hkept.homing, hrest.absoluteCoord,
    hrest.absoluteExtrude, hrest.speed, hrest.speedFactor,
    hrest.extrudeFactor⟩
  rw [Printer.base, hrest.basePosition]
  exact hkept'.xyz

/-- `NAME=n` for a save or a restore. -/
def nameN : Gcmd ℚ := ⟨"NAME=n", [("NAME", ⟨"n", none, none⟩)]⟩

/-- The command `SET_GCODE_OFFSET X=5`. -/
def offsetX5 : Gcmd ℚ := ⟨"SET_GCODE_OFFSET X=5", [("X", numberArg "5" 5)]⟩

theorem restore_after_offset :
    (cmdRestoreGcodeState (fun _ _ _ => none) nameN
      (cmdSetGcodeOffset (fun _ _ _ => none) offsetX5
        (cmdSaveGcodeState nameN readyAt).1).1).1.base.take 3
      = readyAt.base.take 3 := by
  have hstep : SparingStep "n" (cmdSaveGcodeState nameN readyAt).1
      (cmdSetGcodeOffset (fun _ _ _ => none) offsetX5 (cmdSaveGcodeState nameN readyAt).1).1 := by
    refine ⟨fun _ _ _ => none, .setGcodeOffset offsetX5, ⟨?_, ?_⟩, ?_⟩
    · exact nofun
    · intro _ state hs
      rw [← Option.some.inj hs]
      decide
    · exact dispatch_of_ok (Prod.ext rfl (by decide +kernel))
  have hsave : cmdSaveGcodeState nameN readyAt = ((cmdSaveGcodeState nameN readyAt).1, none) := rfl
  exact (restore_of_run (wellFormed_ready rfl) hsave (.single hstep) rfl (fun _ _ _ => none)).1

/-- **THE RECORD IS SHARED**: saved, restored, offset by `X=5` and restored, the printer has the
    offset. -/
theorem restore_after_shared_offset :
    ∃ p₁ p₂ p₃ p₄ : Printer ℚ,
      cmdSaveGcodeState nameN readyAt = (p₁, none) ∧
      cmdRestoreGcodeState (fun _ _ _ => none) nameN p₁ = (p₂, none) ∧
      cmdSetGcodeOffset (fun _ _ _ => none) offsetX5 p₂ = (p₃, none) ∧
      cmdRestoreGcodeState (fun _ _ _ => none) nameN p₃ = (p₄, none) ∧
      readyAt.base.take 3 = [0, 0, 0] ∧ p₂.base.take 3 = [0, 0, 0] ∧
      p₄.base.take 3 = [5, 0, 0] := by
  refine ⟨_, _, _, _, rfl, Prod.ext rfl ?_, Prod.ext rfl ?_, Prod.ext rfl ?_, ?_, ?_, ?_⟩
  all_goals decide +kernel

end GcodeMove
