import Pick.GcodeCoordProofs

/-! # Absolute moves and the reported position

An absolute `G1` writes `v + base` into the last position and asks for a
move there.  As long as the last and the base position are different
lists, the reported coordinate is then `v`, and the same command again
finds its target written and reached.  `G92` without axes makes them the
same list: every coordinate reads zero, and the next `G1` moves the base
along with the target. -/

namespace GcodeMove

open Attempt List ListHeap Option Pnptool

variable {K : Type}

/-! ## The last position as a whole -/

section Last

variable [Field K]

/-- The printer with another last position in the same list. -/
def withLast (p : Printer K) (xs : List K) : Printer K :=
  { p with heap := p.heap.set p.lastPosition xs }

variable {p : Printer K}

theorem last_withLast (h : p.lastPosition < p.heap.length)
    (xs : List K) : (withLast p xs).last = xs :=
  deref_set_self h xs

theorem base_withLast (h : p.basePosition ≠ p.lastPosition)
    (xs : List K) : (withLast p xs).base = p.base :=
  deref_set_ne h.symm p.heap xs

theorem withLast_withLast (p : Printer K) (xs ys : List K) :
    withLast (withLast p xs) ys = withLast p ys := by
  simp only [withLast, set_set]

theorem withLast_last (h : p.lastPosition < p.heap.length) : withLast p p.last = p := by
  have hset : p.heap.set p.lastPosition p.last = p.heap := by
    rw [Printer.last, deref, getD_eq_getElem _ _ h, set_getElem_self]
  rw [withLast, hset]

/-! ## The target of an absolute move -/

/-- What an absolute `G1` writes for an axis. -/
def g1Value (gcmd : Gcmd K) (extrudeFactor : K) (base : List K)
    (axis : String) (pos : Nat) : Option K :=
  (Dict.get gcmd.params axis).bind fun arg => arg.float.map fun v =>
    (if axis = "E" then v * extrudeFactor else v) + base.getD pos 0

/-- The last position once an absolute `G1` has written its axes. -/
def g1Target (gcmd : Gcmd K) (extrudeFactor : K) (base : List K) :
    List (String × Nat) → List K → List K
  | [], last => last
  | (axis, pos) :: axes, last =>
    g1Target gcmd extrudeFactor base axes
      (match g1Value gcmd extrudeFactor base axis pos with
      | none => last
      | some w => last.set pos w)

/-- The axes the command gives are all given as numbers. -/
def Parses (gcmd : Gcmd K) (axes : List (String × Nat)) : Prop :=
  ∀ e ∈ axes, ∀ arg, Dict.get gcmd.params e.1 = some arg → arg.float.isSome

/-- The command is absolute on every axis it gives. -/
def Absolute (p : Printer K) (gcmd : Gcmd K) : Prop :=
  p.absoluteCoord = true ∧ (gcmd.Has "E" → p.absoluteExtrude = true)

variable {gcmd : Gcmd K} {ef : K} {base : List K}

theorem length_g1Target (axes : List (String × Nat)) :
    ∀ last : List K, (g1Target gcmd ef base axes last).length = last.length := by
  induction axes with
  | nil => exact fun _ => rfl
  | cons e axes ih =>
    intro last
    rw [g1Target, ih]
    split
    · rfl
    · rw [length_set]

/-- Other places are left alone. -/
theorem g1Target_other (axes : List (String × Nat)) {i : Nat} :
    ∀ last : List K, i ∉ axes.map Prod.snd → (g1Target gcmd ef base axes last)[i]? = last[i]? := by
  induction axes with
  | nil => exact fun _ _ => rfl
  | cons e axes ih =>
    intro last hi
    rw [map_cons, mem_cons, not_or] at hi
    rw [g1Target, ih _ hi.2]
    split
    · rfl
    · rw [getElem?_set_ne (Ne.symm hi.1)]

variable {axes : List (String × Nat)} {axis : String} {pos : Nat}

/-- The value of each axis given is in its place. -/
theorem g1Target_given {w : K} (hw : g1Value gcmd ef base axis pos = some w) :
    ∀ last : List K, (axes.map Prod.snd).Nodup → (axis, pos) ∈ axes → pos < last.length →
      (g1Target gcmd ef base axes last)[pos]? = some w := by
  induction axes with
  | nil => exact nofun
  | cons e axes ih =>
    intro last hnd hmem hpos
    rw [map_cons, nodup_cons] at hnd
    rcases mem_cons.mp hmem with rfl | hrest
    · -- no later axis has the same place
      rw [g1Target, g1Target_other axes _ hnd.1, hw]
      exact getElem?_set_self hpos
    · rw [g1Target]
      exact ih _ hnd.2 hrest (hpos.trans_eq (length_g1Target [e] last).symm)

/-- Writing values that are there already changes nothing. -/
theorem g1Target_fixed {last : List K}
    (h : ∀ e ∈ axes, ∀ w, g1Value gcmd ef base e.1 e.2 = some w → last[e.2]? = some w) :
    g1Target gcmd ef base axes last = last := by
  induction axes with
  | nil => rfl
  | cons e axes ih =>
    have hrest := ih fun e' he' => h e' (mem_cons_of_mem _ he')
    rw [g1Target]
    split
    · exact hrest
    · rename_i w hw
      rw [set_of_getElem? (h e mem_cons_self w hw)]
      exact hrest

/-- **TARGETS ARE IDEMPOTENT**: writing the axes again changes nothing. -/
theorem g1Target_again {last : List K} (hnd : (axes.map Prod.snd).Nodup)
    (hlt : ∀ e ∈ axes, e.2 < last.length) :
    g1Target gcmd ef base axes (g1Target gcmd ef base axes last)
      = g1Target gcmd ef base axes last :=
  g1Target_fixed fun e he _ hw => g1Target_given hw last hnd he (hlt e he)

/-- An axis of `cmd_G1` that does not fail is a number if it is given. -/
theorem float_of_g1Axis {q : Printer K} (h : g1Axis gcmd axis pos p = (q, none)) {arg : Arg K}
    (harg : Dict.get gcmd.params axis = some arg) : arg.float.isSome := by
  cases hf : arg.float with
  | none => simp [g1Axis, harg, hf] at h
  | some v => rfl

theorem parses_of_g1Axes :
    ∀ {p q : Printer K}, g1Axes gcmd axes p = (q, none) → Parses gcmd axes := by
  induction axes with
  | nil => exact nofun
  | cons e axes ih =>
    intro p q h e' he'
    obtain ⟨r, hr, hrest⟩ := andThen_ok h
    rcases mem_cons.mp he' with rfl | hmem
    · exact fun arg harg => float_of_g1Axis hr harg
    · exact ih hrest e' hmem

/-- One axis of an absolute `G1`, when the last and the base position are different lists. -/
theorem g1Axis_absolute (habs : Absolute p gcmd) (hlast : p.lastPosition < p.heap.length)
    (hpos : pos < p.base.length) (hpos' : pos < p.last.length)
    (hparse : ∀ arg, Dict.get gcmd.params axis = some arg →
      arg.float.isSome) :
    g1Axis gcmd axis pos p = (withLast p
      (match g1Value gcmd p.extrudeFactor p.base axis pos with
      | none => p.last
      | some w => p.last.set pos w), none) := by
  cases harg : Dict.get gcmd.params axis with
  | none =>
    simp only [g1Axis, g1Value, harg, bind_none]
    rw [withLast_last hlast]
  | some arg =>
    obtain ⟨v, hv⟩ := isSome_iff_exists.mp (hparse arg harg)
    have hmode : (if axis = "E" ∧ p.absoluteExtrude = false then false
        else p.absoluteCoord) = true := by
      rw [if_neg, habs.1]
      rintro ⟨rfl, hrel⟩
      have hE : gcmd.Has "E" := by rw [Gcmd.Has, harg]; rfl
      rw [habs.2 hE] at hrel
      cases hrel
    have hread : (deref p.heap p.basePosition)[pos]? = some (p.base.getD pos 0) := by
      rw [getD_eq_getElem _ _ hpos]
      exact getElem?_eq_getElem hpos
    have hwrite : pos < (deref p.heap p.lastPosition).length := hpos'
    simp only [g1Axis, harg, hv, hmode, readItem, hread, writeItem,
      if_pos hwrite, g1Value, bind_some, map_some]
    rfl

/-- **THE LOOP OF `G1`** writes the target and nothing else. -/
theorem g1Axes_absolute :
    ∀ {p : Printer K}, Absolute p gcmd → p.lastPosition < p.heap.length →
      p.basePosition ≠ p.lastPosition → p.base.length = p.last.length →
      (∀ e ∈ axes, e.2 < p.last.length) → Parses gcmd axes →
      g1Axes gcmd axes p
        = (withLast p (g1Target gcmd p.extrudeFactor p.base axes p.last), none) := by
  induction axes with
  | nil =>
    intro p _ hlast _ _ _ _
    rw [g1Axes, g1Target, withLast_last hlast]
  | cons e axes ih =>
    intro p habs hlast hne hlen hlt hparse
    have hpos := hlt e mem_cons_self
    have haxis := g1Axis_absolute habs hlast (hlen ▸ hpos) hpos (hparse e mem_cons_self)
    generalize hxs : (match g1Value gcmd p.extrudeFactor p.base e.1 e.2 with
      | none => p.last
      | some w => p.last.set e.2 w) = xs at haxis
    have hxslen : xs.length = p.last.length := hxs ▸ length_g1Target [e] p.last
    have hlast' : (withLast p xs).last = xs := last_withLast hlast xs
    have hbase' : (withLast p xs).base = p.base := base_withLast hne xs
    have hrest := ih (p := withLast p xs) habs (by rw [withLast, length_set]; exact hlast) hne
      (by rw [hlast', hbase', hxslen, hlen])
      (fun e' he' => by
        rw [hlast', hxslen]
        exact hlt e' (mem_cons_of_mem _ he'))
      (fun e' he' => hparse e' (mem_cons_of_mem _ he'))
    rw [hlast', hbase', withLast_withLast] at hrest
    rw [g1Axes, haxis, g1Target, hxs]
    exact hrest

end Last

/-! ## Moves through a transform -/

section Request

variable [Field K]

/-- What a move to `newpos` asks of the tool head, and the transform it leaves. -/
def request (p : Printer K) (newpos : List K) : Option (Transform K × List K) :=
  match p.transform with
  | .toolhead => some (.toolhead, newpos)
  | .pnp letter none => some (.pnp letter none, newpos)
  | .pnp letter (some (.nozzle trig tool)) =>
    (tool.gcodeToMachine trig (p.rIndex letter) newpos).map fun mpos =>
      (.pnp letter (some (.nozzle trig tool)), mpos)
  | .pnp letter (some (.camera cam)) =>
    (cam.request (p.rIndex letter) newpos).map fun r => (.pnp letter (some (.camera r.1)), r.2)

/-- What follows a move: the manager and its tools read the position back. -/
def afterMove (p : Printer K) : Printer K :=
  match p.transform with
  | .toolhead => p
  | .pnp _ none => p.resetLastPosition
  | .pnp _ (some _) => p.resetLastPosition.resetLastPosition

variable {p : Printer K} {newpos mpos : List K} {tr : Transform K}

/-- **ALL THAT A REQUEST CAN BE.**  Only a camera leaves another transform. -/
inductive Asks (p : Printer K) (newpos : List K) : Transform K → List K → Prop where
  | toolhead (htr : p.transform = .toolhead) : Asks p newpos .toolhead newpos
  | untooled {letter : RLetter} (htr : p.transform = .pnp letter none) :
      Asks p newpos (.pnp letter none) newpos
  | nozzle {letter : RLetter} {trig : Trig K} {tool : Nozzle K} {rIdx : Nat} {mpos : List K}
      (htr : p.transform = .pnp letter (some (.nozzle trig tool)))
      (hidx : p.rIndex letter = some rIdx)
      (hm : tool.gcodeToMachine trig (some rIdx) newpos = some mpos) :
      Asks p newpos (.pnp letter (some (.nozzle trig tool))) mpos
  | camera {letter : RLetter} {cam cam' : Camera K} {rIdx : Nat} {mpos : List K}
      (htr : p.transform = .pnp letter (some (.camera cam)))
      (hidx : p.rIndex letter = some rIdx)
      (hm : cam.request (some rIdx) newpos = some (cam', mpos)) :
      Asks p newpos (.pnp letter (some (.camera cam'))) mpos

theorem request_asks (h : request p newpos = some (tr, mpos)) : Asks p newpos tr mpos := by
  rw [request] at h
  split at h
  · rename_i htr
    cases h
    exact .toolhead htr
  · rename_i letter htr
    cases h
    exact .untooled htr
  · rename_i letter trig tool htr
    obtain ⟨m, hm, he⟩ := map_eq_some_iff.mp h
    cases he
    cases hidx : p.rIndex letter with
    | none => rw [hidx] at hm; cases hm
    | some rIdx => exact .nozzle htr hidx (hidx ▸ hm)
  · rename_i letter cam htr
    obtain ⟨⟨cam', m⟩, hm, he⟩ := map_eq_some_iff.mp h
    cases he
    cases hidx : p.rIndex letter with
    | none => rw [hidx] at hm; cases hm
    | some rIdx => exact .camera htr hidx (hidx ▸ hm)

theorem length_request (h : request p newpos = some (tr, mpos)) : mpos.length = newpos.length := by
  cases request_asks h with
  | toolhead _ | untooled _ => rfl
  | nozzle _ _ hm => exact Nozzle.length_gcodeToMachine _ _ hm
  | camera _ _ hm => exact Camera.length_request _ hm

variable {q : Printer K}

/-- **TRANSFORM ROUND TRIP**: where a request leads, the target is read back. -/
theorem positionWithTransform_request (h : request p newpos = some (tr, mpos))
    (htr : q.transform = tr) (hax : q.registeredAxes = p.registeredAxes)
    (hq : q.commandedPos = mpos) : q.positionWithTransform = newpos := by
  have hr := rIndex_congr hax
  rw [Printer.positionWithTransform, htr, hq]
  cases request_asks h with
  | toolhead _ | untooled _ => rfl
  | nozzle _ hidx hm =>
    simp only [hr, hidx]
    exact Nozzle.machineToGcode_gcodeToMachine _ _ (le_rIndex p hidx) hm
  | camera _ hidx hm =>
    simp only [hr, hidx]
    exact Camera.getPosition_request _ (le_rIndex p hidx) hm

/-- The same request again. -/
theorem request_again (h : request p newpos = some (tr, mpos)) (htr : q.transform = tr)
    (hax : q.registeredAxes = p.registeredAxes) : request q newpos = some (tr, mpos) := by
  have hr := rIndex_congr hax
  rw [request, htr]
  cases request_asks h with
  | toolhead _ | untooled _ => rfl
  | nozzle _ hidx hm => simp only [hr, hidx, hm, map_some]
  | camera _ hidx hm => simp only [hr, hidx, Camera.request_again _ hm, map_some]

variable [LinearOrder K]

/-- A move changes the commanded position and the queue only. -/
theorem toolheadMove_frame (check : Check K) (p : Printer K) (newpos : List K) (speed : K) :
    ∃ c m, (toolheadMove check p newpos speed).1 = { p with commandedPos := c, moves := m } := by
  generalize h : toolheadMove check p newpos speed = r
  cases toolheadMove_heads h with
  | stays _ _ | refused e | goes _ _ => exact ⟨_, _, rfl⟩

variable {speed : K}

theorem toolheadMove_transform {check : Check K} {p : Printer K}
    {newpos : List K} {e : Option Error}
    (h : toolheadMove check p newpos speed = (q, e)) : q.transform = p.transform := by
  obtain ⟨c, m, hf⟩ := toolheadMove_frame check p newpos speed
  rw [h] at hf
  have htr := congrArg Printer.transform hf
  exact htr

/-- `move_with_transform` makes its request, moves and reads back. -/
theorem moveWithTransform_eq (check : Check K) (p : Printer K) (newpos : List K) (speed : K) :
    moveWithTransform check p newpos speed
      = match request p newpos with
        | none => (p, some .internal)
        | some (tr, mpos) =>
          andThen (toolheadMove check { p with transform := tr } mpos speed)
            fun q => (afterMove q, none) := by
  have hafter : ∀ (p : Printer K) (mpos : List K) (f : Printer K → Printer K),
      (∀ q : Printer K, q.transform = p.transform → f q = afterMove q) →
      andThen (toolheadMove check p mpos speed) (fun q => (f q, none))
        = andThen (toolheadMove check p mpos speed) fun q => (afterMove q, none) := by
    intro p mpos f hf
    refine andThen_congr fun q hq => ?_
    rw [hf q (toolheadMove_transform hq)]
  have hsame : ∀ tr, p.transform = tr → { p with transform := tr } = p := by
    rintro tr rfl
    rfl
  match htr : p.transform with
  | .toolhead =>
    simp only [moveWithTransform, request, htr, hsame]
    rw [← hafter p newpos id fun q hq => by rw [afterMove, hq, htr]; rfl]
    obtain ⟨q, _ | e⟩ := toolheadMove check p newpos speed
    · rfl
    · rfl
  | .pnp letter none =>
    simp only [moveWithTransform, request, htr, hsame]
    exact hafter p newpos _ fun q hq => by rw [afterMove, hq, htr]
  | .pnp letter (some (.nozzle trig tool)) =>
    simp only [moveWithTransform, request, htr, toolMove]
    cases tool.gcodeToMachine trig (p.rIndex letter) newpos with
    | none => rfl
    | some mpos =>
      simp only [map_some, hsame _ htr, andThen_assoc]
      exact hafter p mpos _ fun q hq => by rw [afterMove, hq, htr]
  | .pnp letter (some (.camera cam)) =>
    simp only [moveWithTransform, request, htr, toolMove]
    cases cam.request (p.rIndex letter) newpos with
    | none => rfl
    | some r =>
      simp only [map_some, andThen_assoc]
      exact hafter _ r.2 _ fun q hq => by rw [afterMove, hq]

end Request

/-! ## Moves that have been made -/

section Settled

variable [Field K]

theorem axesD_self (xs : List K) : axesD xs xs = List.replicate xs.length 0 := by
  simp only [axesD, zipWith_self, sub_self, map_const']

variable {xs : List K}

/-- Positions without differences are equal. -/
theorem eq_of_axesD : ∀ {ys : List K}, ys.length = xs.length →
    (∀ d ∈ axesD xs ys, d = 0) → xs = ys := by
  induction xs with
  | nil =>
    intro ys hlen _
    exact (length_eq_zero_iff.mp hlen).symm
  | cons x xs ih =>
    intro ys hlen h
    match ys with
    | y :: ys =>
      have hx : y - x = 0 := h (y - x) mem_cons_self
      have hxs := ih (Nat.succ.inj hlen) fun d hd => h d (mem_cons_of_mem _ hd)
      rw [sub_eq_zero.mp hx, hxs]

theorem drop_axesD (n : Nat) (xs ys : List K) :
    (axesD xs ys).drop n = axesD (xs.drop n) (ys.drop n) :=
  drop_zipWith

theorem take_axesD (n : Nat) (xs ys : List K) :
    (axesD xs ys).take n = axesD (xs.take n) (ys.take n) :=
  take_zipWith

variable [LinearOrder K]

/-- The tool head makes no move from `startPos` to `endPos`. -/
def Settled (startPos endPos : List K) : Prop :=
  moveD2 startPos endPos < minMoveD2 ∧ ((axesD startPos endPos).drop 3).all (· = 0)

theorem toolheadMove_of_settled (check : Check K) {p : Printer K}
    {newpos : List K} (speed : K) (h : Settled p.commandedPos newpos) :
    toolheadMove check p newpos speed = (p, none) := by
  rw [toolheadMove, if_pos h.1, if_pos h.2]

variable [IsStrictOrderedRing K]

/-- Squares that sum to nothing are squares of zero. -/
theorem eq_zero_of_sum_squares {ds : List K}
    (h : (ds.map fun d => d * d).sum = 0) : ∀ d ∈ ds, d = 0 := by
  have hnonneg : ∀ x ∈ ds.map fun d => d * d, 0 ≤ x :=
    forall_mem_map.mpr fun d _ => mul_self_nonneg d
  intro d hd
  exact mul_self_eq_zero.mp (all_zero_of_le_zero_le_of_sum_eq_zero hnonneg h (mem_map_of_mem hd))

theorem settled_self (xs : List K) : Settled xs xs := by
  rw [Settled, moveD2, axesD_self, take_replicate, map_replicate,
    drop_replicate, mul_zero, sum_replicate, nsmul_zero]
  refine ⟨?_, ?_⟩
  · rw [minMoveD2]
    positivity
  · simp [all_replicate]

/-- The displacement of a move in X, Y and Z is none at all or long enough to be made. -/
def MovesExactly (startPos endPos : List K) : Prop :=
  moveD2 startPos endPos = 0 ∨ minMoveD2 ≤ moveD2 startPos endPos

theorem take_eq_of_moveD2 {ys : List K} (hlen : ys.length = xs.length)
    (h : moveD2 xs ys = 0) : xs.take 3 = ys.take 3 := by
  refine eq_of_axesD ?_ ?_
  · rw [length_take, length_take, hlen]
  · rw [← take_axesD]
    exact eq_zero_of_sum_squares h

omit [IsStrictOrderedRing K] in
theorem drop_eq_of_axesD {ys : List K} (hlen : ys.length = xs.length)
    (h : ((axesD xs ys).drop 3).all (· = 0)) : xs.drop 3 = ys.drop 3 := by
  refine eq_of_axesD ?_ ?_
  · rw [length_drop, length_drop, hlen]
  · rw [← drop_axesD]
    intro d hd
    exact of_decide_eq_true (all_eq_true.mp h d hd)

/-- **A MOVE IS MADE ONCE**: after a move that is not refused the tool head is
    settled at its target, and exactly there if the displacement allows. -/
theorem toolheadMove_ok {check : Check K} {p q : Printer K} {newpos : List K}
    (hlen : newpos.length = p.commandedPos.length) (hthree : 3 ≤ newpos.length)
    (h : toolheadMove check p newpos speed = (q, none)) :
    Settled q.commandedPos newpos ∧
      (MovesExactly p.commandedPos newpos → q.commandedPos = newpos) := by
  -- a short move is exact only if it keeps X, Y and Z
  have hxyz : moveD2 p.commandedPos newpos < minMoveD2 → MovesExactly p.commandedPos newpos →
      p.commandedPos.take 3 = newpos.take 3 := by
    rintro hlt (hzero | hlong)
    · exact take_eq_of_moveD2 hlen hzero
    · exact absurd hlt (not_lt.mpr hlong)
  cases toolheadMove_heads h with
  | stays hshort hzero =>
    refine ⟨⟨hshort, hzero⟩, fun hex => ?_⟩
    rw [← take_append_drop 3 p.commandedPos, hxyz hshort hex,
      drop_eq_of_axesD hlen hzero, take_append_drop]
  | goes hend _ =>
    rcases hend with rfl | ⟨hshort, rfl⟩
    · exact ⟨settled_self _, fun _ => rfl⟩
    have hthree' : (p.commandedPos.take 3).length = 3 := by
      rw [length_take]
      omega
    refine ⟨⟨?_, ?_⟩, fun hex => ?_⟩
    · rw [moveD2, take_axesD, take_left' hthree', ← take_axesD]
      exact hshort
    · rw [drop_axesD, drop_left' hthree', ← drop_axesD]
      exact (settled_self newpos).2
    · rw [hxyz hshort hex, take_append_drop]

end Settled

/-! ## A move to the last position -/

section Arrived

variable [Field K]

/-- Reading the position back leaves everything but the last position. -/
theorem afterMove_spec (q : Printer K) :
    ∃ heap last, afterMove q = { q with heap := heap, lastPosition := last } ∧
      (∀ r < q.heap.length, deref heap r = deref q.heap r) ∧
      ((q.transform = .toolhead ∧ heap = q.heap ∧ last = q.lastPosition) ∨
        (q.transform ≠ .toolhead ∧ q.heap.length ≤ last ∧
          deref heap last = q.positionWithTransform)) := by
  rw [afterMove]
  split
  · rename_i htr
    exact ⟨q.heap, q.lastPosition, rfl, fun _ _ => rfl, .inl ⟨htr, rfl, rfl⟩⟩
  · rename_i letter htr
    refine ⟨_, _, rfl, fun r hr => deref_alloc_of_lt hr _, .inr ⟨?_, ?_, ?_⟩⟩
    · rw [htr]
      exact nofun
    · exact le_refl _
    · exact deref_alloc_self ..
  · rename_i letter tool htr
    -- the position is read twice
    have hlen := length_alloc q.heap q.positionWithTransform
    refine ⟨_, _, rfl, fun r hr => ?_, .inr ⟨?_, ?_, ?_⟩⟩
    · refine (deref_alloc_of_lt ?_ _).trans (deref_alloc_of_lt hr _)
      rw [Printer.resetLastPosition, hlen]
      exact Nat.lt_succ_of_lt hr
    · rw [htr]
      exact nofun
    · rw [Printer.resetLastPosition, hlen]
      exact Nat.le_succ _
    · exact deref_alloc_self ..

variable [LinearOrder K] {q : Printer K}

/-- A request for where the tool head is makes no move. -/
theorem moveWithTransform_of_settled (check : Check K) {newpos mpos : List K} (speed : K)
    (hreq : request q newpos = some (q.transform, mpos)) (h : Settled q.commandedPos mpos) :
    ∃ p₂, moveWithTransform check q newpos speed = (p₂, none) ∧
      p₂.moves = q.moves ∧ p₂.commandedPos = q.commandedPos := by
  obtain ⟨_, _, hafter, -⟩ := afterMove_spec q
  refine ⟨afterMove q, ?_, by rw [hafter], by rw [hafter]⟩
  rw [moveWithTransform_eq, hreq]
  show andThen (toolheadMove check q mpos speed) _ = _
  rw [toolheadMove_of_settled check speed h]
  rfl

variable {check : Check K} {p : Printer K}

/-- **A MOVE THAT IS DONE** made its request, moved and read back. -/
theorem moveWithTransform_ok {newpos : List K}
    (h : moveWithTransform check p newpos speed = (q, none)) :
    ∃ tr mpos c m, request p newpos = some (tr, mpos) ∧
      toolheadMove check { p with transform := tr } mpos speed
        = ({ p with transform := tr, commandedPos := c, moves := m }, none) ∧
      q = afterMove { p with transform := tr, commandedPos := c, moves := m } := by
  rw [moveWithTransform_eq] at h
  cases hreq : request p newpos with
  | none => rw [hreq] at h; cases (Prod.mk.inj h).2
  | some r =>
    obtain ⟨tr, mpos⟩ := r
    rw [hreq] at h
    obtain ⟨q₁, hmove, hafter⟩ := andThen_ok h
    obtain ⟨c, m, hframe⟩ := toolheadMove_frame check { p with transform := tr } mpos speed
    rw [hmove] at hframe
    obtain rfl : q₁ = { p with
        transform := tr, commandedPos := c, moves := m } := hframe
    exact ⟨tr, mpos, c, m, rfl, hmove, (Prod.mk.inj hafter).1.symm⟩

/-- The move to `newpos` is read back exactly, or there is nothing to read back. -/
def ExactTarget (p : Printer K) (newpos : List K) : Prop :=
  p.transform = .toolhead ∨ ∀ tr mpos, request p newpos = some (tr, mpos) →
    MovesExactly p.commandedPos mpos

/-- The printer is at the last position and stays there when asked again. -/
structure Arrived (p p₁ : Printer K) : Prop where
  last : p₁.last = p.last
  base : p₁.base = p.base
  apart : p₁.basePosition ≠ p₁.lastPosition
  absoluteCoord : p₁.absoluteCoord = p.absoluteCoord
  absoluteExtrude : p₁.absoluteExtrude = p.absoluteExtrude
  extrudeFactor : p₁.extrudeFactor = p.extrudeFactor
  registeredAxes : p₁.registeredAxes = p.registeredAxes
  again : ∀ check speed, ∃ p₂,
    moveWithTransform check { p₁ with speed := speed } p.last speed = (p₂, none) ∧
    p₂.moves = p₁.moves ∧ p₂.commandedPos = p₁.commandedPos

variable [IsStrictOrderedRing K]

theorem arrived_of_move {p₁ : Printer K}
    (hwf : WellFormed p) (hne : p.basePosition ≠ p.lastPosition) (hexact : ExactTarget p p.last)
    (h : moveWithTransform check p p.last speed = (p₁, none)) : Arrived p p₁ := by
  obtain ⟨tr, mpos, c, m, hreq, hmove, hp₁⟩ := moveWithTransform_ok h
  -- what the move itself did
  have hlen : mpos.length = p.axes.length := (length_request hreq).trans hwf.last.2
  have hax := length_axes p
  obtain ⟨hsettled, hreached⟩ := toolheadMove_ok (p := { p with transform := tr })
    (hlen.trans hwf.commanded.symm) (by omega) hmove
  obtain ⟨heap, last, heq, hbase, hlast⟩ := afterMove_spec
    { p with transform := tr, commandedPos := c, moves := m }
  rw [heq] at hp₁
  subst hp₁
  have hagain : ∀ check speed, ∃ p₂, moveWithTransform check
      { p with
        transform := tr, commandedPos := c, moves := m
        heap := heap, lastPosition := last, speed := speed } p.last speed
        = (p₂, none) ∧ p₂.moves = m ∧ p₂.commandedPos = c := by
    intro check' speed'
    exact moveWithTransform_of_settled check' speed' (request_again hreq rfl rfl) hsettled
  have hlast' : deref heap last = p.last ∧ p.basePosition ≠ last := by
    rcases hlast with ⟨-, hheap, hl⟩ | ⟨htr, hle, hl⟩
    · rw [hheap, hl]
      exact ⟨rfl, hne⟩
    · -- the position read back is the target
      have hmoves : MovesExactly p.commandedPos mpos := by
        rcases hexact with hth | hex
        · rw [request, hth] at hreq
          exact absurd (Prod.mk.inj (some.inj hreq)).1.symm htr
        · exact hex tr mpos hreq
      refine ⟨hl.trans ?_, Nat.ne_of_lt (lt_of_lt_of_le hwf.base.1 hle)⟩
      exact positionWithTransform_request hreq rfl rfl (hreached hmoves)
  exact ⟨hlast'.1, hbase p.basePosition hwf.base.1, hlast'.2, rfl, rfl, rfl, rfl, hagain⟩

/-! ## The reported position -/

variable {gcmd : Gcmd K}

omit [IsStrictOrderedRing K] in
theorem g1Speed_again (h : g1Speed gcmd p = (q, none)) :
    (∃ speed, q = { p with speed := speed }) ∧
      ∀ p' : Printer K, ∃ speed, g1Speed gcmd p' = ({ p' with speed := speed }, none) := by
  rw [g1Speed] at h
  simp only [g1Speed]
  split at h
  · rename_i hF
    exact ⟨⟨p.speed, (Prod.mk.inj h).1.symm⟩, fun p' => ⟨p'.speed, rfl⟩⟩
  · split at h
    · cases (Prod.mk.inj h).2
    · split at h
      · cases (Prod.mk.inj h).2
      · rename_i hF v hv hpos
        refine ⟨⟨_, (Prod.mk.inj h).1.symm⟩, fun p' => ⟨v * p'.speedFactor, ?_⟩⟩
        simp only [if_neg hpos]

omit [LinearOrder K] [IsStrictOrderedRing K] in
/-- The coordinate reported for an axis whose place holds its value. -/
theorem getGcodePosition_given {axis : String} {pos : Nat} {arg : Arg K} {v : K}
    (he : p.extrudeFactor ≠ 0) (hmem : (axis, pos) ∈ p.axisMap) (hpos : pos < p.base.length)
    (harg : Dict.get gcmd.params axis = some arg) (hv : arg.float = some v)
    (hlast : ∀ w, g1Value gcmd p.extrudeFactor p.base axis pos = some w →
      p.last[pos]? = some w) :
    p.getGcodePosition[pos]? = some v := by
  have hbase : p.base[pos]? = some (p.base.getD pos 0) := by
    rw [getD_eq_getElem _ _ hpos, getElem?_eq_getElem hpos]
  have hE : ("E", 3) ∈ p.axisMap := mem_axisMap p (by decide)
  have hw := hlast _ (by
    rw [g1Value, harg, bind_some, hv, map_some])
  have hdiff : (List.zipWith (fun lp bp => lp - bp) p.last p.base)[pos]?
      = some (if axis = "E" then v * p.extrudeFactor else v) := by
    rw [getElem?_zipWith, hw, hbase]
    exact congrArg some (add_sub_cancel_right _ _)
  rw [Printer.getGcodePosition]
  by_cases h3 : pos = 3
  · -- the fourth coordinate is the extruder's
    subst h3
    obtain rfl := axisMap_inj p hmem hE
    rw [if_pos rfl] at hdiff
    obtain ⟨hlt, -⟩ := List.getElem?_eq_some_iff.mp hdiff
    rw [getElem?_set_self hlt, getD_eq_getElem?_getD, hdiff]
    exact congrArg some (mul_div_cancel_right₀ v he)
  · have hne : axis ≠ "E" := by
      rintro rfl
      have hkeys := (axisMap_spec p).2.2.2
      exact h3 (some.inj ((Dict.get_of_mem hkeys hmem).symm.trans
        (Dict.get_of_mem hkeys hE)))
    rw [getElem?_set_ne (Ne.symm h3), hdiff, if_neg hne]

/-- The target of an absolute `G1`: its values, from the base position. -/
def targetOf (p : Printer K) (gcmd : Gcmd K) : List K :=
  g1Target gcmd p.extrudeFactor p.base p.axisMap p.last

/-- **ABSOLUTE MOVES** report what was asked for, and asked again move nothing. -/
theorem cmdG1_absolute {p₁ : Printer K} (hwf : WellFormed p)
    (habs : Absolute p gcmd) (hne : p.basePosition ≠ p.lastPosition)
    (hexact : ExactTarget p (targetOf p gcmd)) (h : cmdG1 check gcmd p = (p₁, none)) :
    (∀ axis pos arg v, (axis, pos) ∈ p.axisMap →
      Dict.get gcmd.params axis = some arg → arg.float = some v →
      p₁.getGcodePosition[pos]? = some v) ∧
    ∀ check', ∃ p₂, cmdG1 check' gcmd p₁ = (p₂, none) ∧
      p₂.moves = p₁.moves ∧ p₂.commandedPos = p₁.commandedPos := by
  have hwf₁ : WellFormed p₁ := by
    have hr := walk_cmdG1 (walk_reaches (B := fun _ => True) (N := fun _ => True)) check gcmd p
    rw [h] at hr
    exact wellFormed_of_micros (hr hwf) hwf
  obtain ⟨p', haxes, h⟩ := andThen_ok h
  obtain ⟨p'', hspeed, hmove⟩ := andThen_ok h
  have hparse := parses_of_g1Axes haxes
  obtain ⟨-, hlt, hnd, -⟩ := axisMap_spec p
  have hlt' : ∀ e ∈ p.axisMap, e.2 < p.last.length := by
    intro e he
    rw [Printer.last, hwf.last.2]
    exact hlt e he
  -- the loop has written the target
  have hloop := g1Axes_absolute habs hwf.last.1 hne (hwf.base.2.trans hwf.last.2.symm) hlt' hparse
  obtain rfl := (Prod.mk.inj (haxes.symm.trans hloop)).1
  obtain ⟨⟨speed, rfl⟩, hagain⟩ := g1Speed_again hspeed
  have hlast : (withLast p (targetOf p gcmd)).last = targetOf p gcmd := last_withLast hwf.last.1 _
  have hbase : (withLast p (targetOf p gcmd)).base = p.base := base_withLast hne _
  have hwf'' : WellFormed { withLast p (targetOf p gcmd) with
      speed := speed } := by
    have hw : WellFormed (withLast p (targetOf p gcmd)) :=
      hwf.withHeap (extends_set (length_g1Target p.axisMap p.last))
    exact { hw with }
  have hexact'' : ExactTarget { withLast p (targetOf p gcmd) with
      speed := speed } (withLast p (targetOf p gcmd)).last := by
    rw [hlast]
    exact hexact
  have harr := arrived_of_move hwf'' hne hexact'' hmove
  have hlast₁ : p₁.last = targetOf p gcmd := harr.last.trans hlast
  have hbase₁ : p₁.base = p.base := harr.base.trans hbase
  have hef₁ : p₁.extrudeFactor = p.extrudeFactor := harr.extrudeFactor
  have hmap₁ : p₁.axisMap = p.axisMap := by
    simp only [Printer.axisMap, Printer.extraAxes, harr.registeredAxes]
    rfl
  refine ⟨?_, ?_⟩
  · intro axis pos arg v hmem harg hv
    refine getGcodePosition_given hwf₁.extrudeFactor.ne' (hmap₁ ▸ hmem) ?_ harg hv ?_
    · rw [hbase₁, Printer.base, hwf.base.2]
      exact hlt _ hmem
    · intro w hw
      rw [hef₁, hbase₁] at hw
      rw [hlast₁]
      exact g1Target_given hw p.last hnd hmem (hlt' _ hmem)
  · intro check'
    -- the axes are written already
    have hloop₁ : g1Axes gcmd p₁.axisMap p₁ = (p₁, none) := by
      have habs₁ : Absolute p₁ gcmd := by
        refine ⟨harr.absoluteCoord.trans habs.1, fun hE => ?_⟩
        exact harr.absoluteExtrude.trans (habs.2 hE)
      have hlen₁ : p₁.last.length = p.last.length := by rw [hlast₁, targetOf, length_g1Target]
      rw [g1Axes_absolute habs₁ hwf₁.last.1 harr.apart (hwf₁.base.2.trans hwf₁.last.2.symm)
        (by rw [hmap₁, hlen₁]; exact hlt') (by rw [hmap₁]; exact hparse)]
      have hfix : g1Target gcmd p₁.extrudeFactor p₁.base p₁.axisMap p₁.last = p₁.last := by
        rw [hef₁, hbase₁, hmap₁, hlast₁]
        exact g1Target_again hnd hlt'
      rw [hfix, withLast_last hwf₁.last.1]
    obtain ⟨speed', hspeed'⟩ := hagain p₁
    obtain ⟨p₂, hmove', hsame⟩ := harr.again check' speed'
    refine ⟨p₂, ?_, hsame⟩
    rw [cmdG1, hloop₁]
    show andThen (g1Speed gcmd p₁) _ = _
    rw [hspeed', ← hmove', ← harr.last]
    rfl

omit [Field K] [LinearOrder K] [IsStrictOrderedRing K] in
/-- A `G92` without axes reads none of its offsets. -/
theorem mapM_axisFloat_none {axes : List (Option String)}
    (h : ∀ a, some a ∈ axes → Dict.get gcmd.params a = none) :
    axes.mapM (axisFloat gcmd) = .ok (List.replicate axes.length none) := by
  induction axes with
  | nil => rfl
  | cons axis axes ih =>
    have hrest := ih fun a ha => h a (mem_cons_of_mem _ ha)
    have haxis : axisFloat gcmd axis = .ok none := by
      cases axis with
      | none => rfl
      | some a => rw [axisFloat, Gcmd.getFloat, Gcmd.get, h a mem_cons_self]
    rw [mapM_cons, haxis, hrest]
    rfl

omit [LinearOrder K] [IsStrictOrderedRing K] in
theorem g92Axes_none (n : Nat) :
    ∀ (i : Nat) (p : Printer K), g92Axes i (List.replicate n none) p = (p, none) := by
  induction n with
  | zero => exact fun _ _ => rfl
  | succ n ih => exact fun i p => ih (i + 1) p

omit [IsStrictOrderedRing K] in
/-- **`G92` WITHOUT AXES** makes every reported coordinate zero. -/
theorem cmdG92_without_axes (hwf : WellFormed p)
    (h : ∀ a, some a ∈ p.axes → Dict.get gcmd.params a = none) :
    ∃ p₁, cmdG92 gcmd p = (p₁, none) ∧ p₁.getGcodePosition = List.replicate p.axes.length 0 := by
  refine ⟨{ p with basePosition := p.lastPosition }, ?_, ?_⟩
  · rw [cmdG92, mapM_axisFloat_none h]
    show andThen (g92Axes 0 (List.replicate _ none) p) _ = _
    rw [g92Axes_none]
    show (if (List.replicate p.axes.length (none : Option K)).all _ then _
      else _) = _
    rw [if_pos (by simp [all_replicate])]
  · have hzero : List.zipWith (fun lp bp => lp - bp) p.last p.last
        = List.replicate p.axes.length 0 := by
      simp only [zipWith_self, sub_self, map_const']
      rw [Printer.last, hwf.last.2]
    show List.set (List.zipWith _ p.last p.last) 3
      (List.getD (List.zipWith _ p.last p.last) 3 0 / p.extrudeFactor) = _
    rw [hzero, getD_eq_getElem?_getD, getElem?_getD_replicate_default_eq,
      zero_div, set_replicate_self]

end Arrived

/-! ## Runs of commands -/

/-- **COORDINATES IN RUNS**: after any commands, an absolute `G1` that finds the base and the
    last position apart reports its values and made again moves nothing, and a `G92` without
    axes reports zeros. -/
theorem coordinates_of_run [Field K] [LinearOrder K] [IsStrictOrderedRing K]
    {p₀ p : Printer K} (h₀ : WellFormed p₀) (hrun : Relation.ReflTransGen Step p₀ p) :
    (∀ check gcmd p₁, Absolute p gcmd → p.basePosition ≠ p.lastPosition →
      ExactTarget p (targetOf p gcmd) → cmdG1 check gcmd p = (p₁, none) →
      (∀ axis pos arg v, (axis, pos) ∈ p.axisMap →
        Dict.get gcmd.params axis = some arg → arg.float = some v →
        p₁.getGcodePosition[pos]? = some v) ∧
      ∀ check', ∃ p₂, cmdG1 check' gcmd p₁ = (p₂, none) ∧
        p₂.moves = p₁.moves ∧ p₂.commandedPos = p₁.commandedPos) ∧
    (∀ commandline number args, some "G" ∉ p.axes → (∀ a, some a ∈ p.axes → a ∉ Dict.keys args) →
      ∃ p₁, cmdG92 ⟨commandline, traditionalParams "G" number args⟩ p
          = (p₁, none) ∧
        p₁.getGcodePosition = List.replicate p.axes.length 0) := by
  have hwf := wellFormed_of_run hrun h₀
  refine ⟨?_, ?_⟩
  · intro check gcmd p₁ habs hne hexact h
    exact cmdG1_absolute hwf habs hne hexact h
  · intro commandline number args hG hargs
    refine cmdG92_without_axes hwf fun a ha => ?_
    refine Dict.get_eq_none_iff.mpr fun hk => ?_
    obtain ⟨e, he, rfl⟩ := mem_map.mp hk
    rcases Dict.mem_update he with hown | harg
    · rw [mem_singleton.mp hown] at ha
      exact hG ha
    · exact hargs e.1 ha (mem_map.mpr ⟨e, harg, rfl⟩)

/-- A number as a parameter. -/
def numberArg (text : String) (v : ℚ) : Arg ℚ := ⟨text, some v, none⟩

/-- The command `G92`. -/
def plainG92 : Gcmd ℚ := ⟨"G92", traditionalParams "G" (numberArg "92" 92) []⟩

/-- The command `G1 X5`. -/
def g1X5 : Gcmd ℚ := ⟨"G1 X5", traditionalParams "G" (numberArg "1" 1) [("X", numberArg "5" 5)]⟩

/-- A printer with a rotation axis, at (1, 2, 3, 4, 6). -/
def readyAt : Printer ℚ := .ready [some "R"] [1, 2, 3, 4, 6] .toolhead

theorem coordinates_of_ready :
    (cmdG1 (fun _ _ _ => none) g1X5 readyAt).1.getGcodePosition[0]? = some 5 ∧
      ∃ p₁, cmdG92 plainG92 readyAt = (p₁, none) ∧ p₁.getGcodePosition = [0, 0, 0, 0, 0] := by
  have hready : WellFormed readyAt := wellFormed_ready rfl
  obtain ⟨hg1, hg92⟩ := coordinates_of_run hready .refl
  refine ⟨?_, ?_⟩
  · exact (hg1 (fun _ _ _ => none) g1X5 _ ⟨rfl, fun _ => rfl⟩ (by decide)
      (.inl rfl) (Prod.ext rfl (by decide +kernel))).1 "X" 0
      (numberArg "5" 5) 5 (by decide) rfl rfl
  · exact hg92 "G92" (numberArg "92" 92) [] (by decide) nofun

/-- **THE BASE MOVES ALONG**: after `G92` without axes, `G1 X5` reports zero
    for X, and the same command again moves the machine again. -/
theorem g1_after_plain_g92 :
    ∃ p p₁ p₂ : Printer ℚ,
      cmdG92 plainG92 readyAt = (p, none) ∧ Absolute p g1X5 ∧
      cmdG1 (fun _ _ _ => none) g1X5 p = (p₁, none) ∧ p₁.getGcodePosition[0]? = some 0 ∧
      cmdG1 (fun _ _ _ => none) g1X5 p₁ = (p₂, none) ∧ p₁.commandedPos = [6, 2, 3, 4, 6] ∧
      p₂.commandedPos = [11, 2, 3, 4, 6] := by
  refine ⟨(cmdG92 plainG92 readyAt).1, _, _, Prod.ext rfl ?_,
    ⟨rfl, fun _ => rfl⟩, Prod.ext rfl ?_, ?_, Prod.ext rfl ?_, ?_, ?_⟩
  all_goals decide +kernel

end GcodeMove
