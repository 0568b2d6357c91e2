import Pick.GcodeSizeProofs
import Pick.PnpProofs

/-! # The axes of the position lists

`base_position`, `homing_position` and `last_position` belong to the G-code
layer, `commanded_pos`, `pos_axes` and `extra_axes` to the tool head, and the
letters to the axes themselves.  A registration or a removal changes them one
after the other.

They agree after every request, as long as no `RESTORE_GCODE_STATE` brings back a
record that was saved with another number of axes. -/

namespace Pnp

open GcodeMove List ListHeap Option Pnptool

variable {K : Type}

/-! ## The axis map -/

/-- A letter of the map keeps its place. -/
theorem get_addAxes_of_get (extraAxes : List (Option String)) {l : String}
    {j : Nat} : ∀ (index : Nat) (m : List (String × Nat)),
      Dict.get m l = some j → Dict.get (addAxes index extraAxes m) l = some j := by
  intro index m h
  fun_induction addAxes index extraAxes m with
  | case1 => exact h
  | case2 index extraAxes m ih => exact ih h
  | case3 index gcodeId extraAxes m hold ih => exact ih h
  | case4 index gcodeId extraAxes m hnew ih =>
    have hne : gcodeId ≠ l := by
      rintro rfl
      exact hnew (.inl (h ▸ rfl))
    exact ih ((Dict.get_set_ne m index hne).trans h)

/-- A new letter gets the place of its axis. -/
theorem get_addAxes (extraAxes : List (Option String)) :
    ∀ (index : Nat) (m : List (String × Nat)), extraAxes.Nodup →
      (∀ l, some l ∈ extraAxes → Dict.get m l = none ∧ l ∉ ["", "F", "N", "FN"]) →
      ∀ i l, extraAxes[i]? = some (some l) →
        Dict.get (addAxes index extraAxes m) l = some (index + i) := by
  induction extraAxes with
  | nil => intro index m _ _ i l h; exact nomatch h
  | cons ea extraAxes ih =>
    intro index m hnd hnew i l h
    obtain ⟨hea, hnd'⟩ := nodup_cons.mp hnd
    cases ea with
    | none =>
      cases i with
      | zero => exact nomatch h
      | succ i =>
        have hrest := ih (index + 1) m hnd' (fun l hl => hnew l (mem_cons_of_mem _ hl)) i l h
        rw [addAxes, hrest]
        congr 1
        omega
    | some gcodeId =>
      obtain ⟨hnone, hvalid⟩ := hnew gcodeId mem_cons_self
      have hadd : addAxes index (some gcodeId :: extraAxes) m
          = addAxes (index + 1) extraAxes (Dict.set m gcodeId index) := by
        rw [addAxes, if_neg]
        rintro (hsome | hmem)
        · rw [hnone] at hsome
          cases hsome
        · exact hvalid hmem
      have hother : ∀ l, some l ∈ extraAxes → gcodeId ≠ l := fun l hl heq => hea (heq ▸ hl)
      rw [hadd]
      cases i with
      | zero =>
        obtain rfl : gcodeId = l := some.inj (some.inj h)
        exact get_addAxes_of_get extraAxes _ _ (Dict.get_set_self ..)
      | succ i =>
        have hrest := ih (index + 1) (Dict.set m gcodeId index) hnd'
          (fun l hl => by
            rw [Dict.get_set_ne _ _ (hother l hl)]
            exact hnew l (mem_cons_of_mem _ hl)) i l h
        rw [hrest]
        congr 1
        omega

variable [Field K]

variable {p : Printer K} {letter : String} {id : AxisId}

/-- **EVERY LETTER LEADS TO ITS AXIS**, if the letters differ. -/
theorem get_axisMap (hnd : p.registeredAxes.Nodup)
    (hvalid : ∀ l, some l ∈ p.registeredAxes → isGcodeAxis l)
    {i : Nat} {l : String} (h : p.axes[i]? = some (some l)) : Dict.get p.axisMap l = some i := by
  have hfirst : ∀ l ∈ ["X", "Y", "Z", "E", "", "F", "N", "FN"], isGcodeAxis l = false := by decide
  have hnew : ∀ l, some l ∈ p.registeredAxes →
      Dict.get [("X", 0), ("Y", 1), ("Z", 2), ("E", 3)] l = none ∧ l ∉ ["", "F", "N", "FN"] := by
    intro l hl
    have hnot : ∀ a ∈ ["X", "Y", "Z", "E", "", "F", "N", "FN"], l ≠ a := by
      rintro a ha rfl
      have hno := hfirst l ha
      rw [hvalid l hl] at hno
      cases hno
    refine ⟨Dict.get_eq_none_iff.mpr fun hmem => ?_, fun hmem => ?_⟩
    · have hmem' : l ∈ ["X", "Y", "Z", "E"] := hmem
      exact hnot l (mem_append_left ["", "F", "N", "FN"] hmem') rfl
    · exact hnot l (mem_append_right ["X", "Y", "Z", "E"] hmem) rfl
  match i with
  | 0 | 1 | 2 | 3 =>
    cases h
    exact get_addAxes_of_get p.extraAxes 3 _ rfl
  | i + 4 =>
    have hplace := get_addAxes p.registeredAxes 4 _ hnd hnew i l h
    rw [add_comm] at hplace
    exact hplace

/-! ## Resizing the lists -/

/-- A list with X, Y, Z and E. -/
def HasFour (heap : Heap K) (r : Ref) : Prop := r < heap.length ∧ 4 ≤ (deref heap r).length

theorem hasLength_clearExtra_self {r : Ref} (h : HasFour p.heap r) :
    HasLength (clearExtra p r).heap p.axes.length r := by
  refine ⟨?_, ?_⟩
  · rw [clearExtra, length_set]
    exact h.1
  · rw [clearExtra, deref_set_self h.1, length_append, length_take, length_replicate, length_axes]
    have hfour := h.2
    omega

/-- A list that has been resized keeps its length when another is. -/
theorem hasLength_clearExtra {r s : Ref} (h : HasLength p.heap p.axes.length s) :
    HasLength (clearExtra p r).heap p.axes.length s := by
  by_cases hrs : r = s
  · subst hrs
    refine hasLength_clearExtra_self ⟨h.1, ?_⟩
    rw [h.2, length_axes]
    omega
  · refine ⟨?_, ?_⟩
    · rw [clearExtra, length_set]
      exact h.1
    · rw [clearExtra, deref_set_ne hrs, h.2]

theorem hasFour_clearExtra {r s : Ref} (h : HasFour p.heap s) :
    HasFour (clearExtra p r).heap s := by
  by_cases hrs : r = s
  · subst hrs
    obtain ⟨hlt, hlen⟩ := hasLength_clearExtra_self h
    refine ⟨hlt, ?_⟩
    rw [hlen, length_axes]
    omega
  · refine ⟨?_, ?_⟩
    · rw [clearExtra, length_set]
      exact h.1
    · rw [clearExtra, deref_set_ne hrs]
      exact h.2

/-- `_update_extra_axes` gives the lists the length of the axes.  The two lists
    may be the same one. -/
theorem sized_updateExtraAxes (hbase : HasFour p.heap p.basePosition)
    (hhoming : HasFour p.heap p.homingPosition) (hc : p.commandedPos.length = p.axes.length) :
    Sized (updateExtraAxes p) := by
  have hb := hasLength_clearExtra (p := clearExtra p p.basePosition)
    (r := p.homingPosition) (hasLength_clearExtra_self hbase)
  have hh := hasLength_clearExtra_self (p := clearExtra p p.basePosition)
    (hasFour_clearExtra hhoming)
  have hx := extends_alloc (clearExtra (clearExtra p p.basePosition)
    p.homingPosition).heap (clearExtra (clearExtra p p.basePosition)
      p.homingPosition).positionWithTransform
  exact ⟨hb.of_extends hx, hasLength_alloc (length_positionWithTransform hc), hh.of_extends hx, hc⟩

theorem Sized.hasFour (h : Sized p) :
    HasFour p.heap p.basePosition ∧ HasFour p.heap p.homingPosition := by
  have hax := length_axes p
  have hb := h.base.2
  have hh := h.homing.2
  exact ⟨⟨h.base.1, by omega⟩, ⟨h.homing.1, by omega⟩⟩

/-! ## Machines whose lists agree -/

/-- The lists of a machine agree on its axes, and no two axes have the same letter. -/
structure Consistent (m : Machine K) : Prop where
  sized : Sized m.printer
  registered : m.printer.registeredAxes = m.extra.map fun id => (m.axes id).gcodeId
  posAxes : m.posAxes.map some = ["x", "y", "z", "e"].map some ++ m.printer.registeredAxes
  nodup : m.printer.registeredAxes.Nodup
  valid : ∀ l, some l ∈ m.printer.registeredAxes → isGcodeAxis l
  extra : ∀ id, (m.axes id).gcodeId ≠ none → id ∈ m.extra

variable {m : Machine K}

theorem Consistent.nodup_extra (h : Consistent m) : m.extra.Nodup :=
  Nodup.of_map _ (h.registered ▸ h.nodup)

theorem Consistent.length_registered (h : Consistent m) :
    m.printer.registeredAxes.length = m.extra.length := by
  rw [h.registered, length_map]

theorem Consistent.length_posAxes (h : Consistent m) :
    m.posAxes.length = m.printer.axes.length := by
  have hlen := congrArg List.length h.posAxes
  rw [length_map, length_append, length_map] at hlen
  rw [hlen, length_axes]
  rfl

/-- What the printer does leaves the axes alone. -/
theorem Consistent.withPrinter (h : Consistent m) {q : Printer K}
    (hq : Keeps m.printer q) : Consistent { m with printer := q } := by
  obtain ⟨hsized, hreg⟩ := hq h.sized
  refine ⟨hsized, ?_, ?_, ?_, ?_, h.extra⟩
  · exact hreg.trans h.registered
  · exact h.posAxes.trans (hreg ▸ rfl)
  · exact hreg ▸ h.nodup
  · exact hreg ▸ h.valid

theorem gcodeId_flushLookahead (m : Machine K) (id : AxisId) :
    (m.flushLookahead.axes id).gcodeId = (m.axes id).gcodeId := by
  rw [Machine.flushLookahead]
  dsimp only
  split
  · rfl
  · rfl

/-! ## Registration and removal -/

/-- A letter of an axis is none of `x`, `y`, `z` and `e`. -/
theorem Consistent.not_mem_posAxes (h : Consistent m) (hvalid : isGcodeAxis letter)
    (hnew : some letter ∉ m.printer.registeredAxes) : letter ∉ m.posAxes := by
  intro hmem
  have hmem' := mem_map_of_mem (f := some) hmem
  rw [h.posAxes] at hmem'
  rcases mem_append.mp hmem' with hfirst | hreg
  · have hlower : ∀ l ∈ ["x", "y", "z", "e"], isGcodeAxis l = false := by decide
    obtain ⟨l, hl, hll⟩ := mem_map.mp hfirst
    obtain rfl := some.inj hll
    have hno := hlower l hl
    rw [hvalid] at hno
    cases hno
  · exact hnew hreg

theorem gcodeId_setGcodeId (m : Machine K) (id j : AxisId) (letter : Option String) :
    ((m.setGcodeId id letter).axes j).gcodeId = if j = id then letter else (m.axes j).gcodeId := by
  rw [Machine.setGcodeId]
  dsimp only
  rw [Function.update_apply]
  split
  · rfl
  · rfl

/-- The machine with one more axis at the end of its lists. -/
def withAxis (m : Machine K) (id : AxisId) (letter : String) (axisPos : K) : Machine K :=
  { m.flushLookahead with
    extra := m.extra ++ [id]
    posAxes := m.posAxes ++ [letter]
    printer := updateExtraAxes { m.printer with
      registeredAxes := m.printer.registeredAxes ++ [some letter]
      commandedPos := m.printer.commandedPos ++ [axisPos] } }

theorem gcodeId_withAxis (m : Machine K) (id : AxisId) (letter : String)
    (axisPos : K) (j : AxisId) :
    ((withAxis (m.setGcodeId id (some letter)) id letter axisPos).axes j).gcodeId
      = if j = id then some letter else (m.axes j).gcodeId :=
  (gcodeId_flushLookahead _ j).trans (gcodeId_setGcodeId ..)

theorem addExtraAxis_eq (axisPos : K) (hletter : letter ∉ m.posAxes)
    (hlen : m.printer.commandedPos.length ≤ m.posAxes.length) :
    m.addExtraAxis id letter axisPos = withAxis m id letter axisPos := by
  have hlong : m.printer.commandedPos.length < (m.posAxes ++ [letter]).length := by
    rw [length_append]
    exact Nat.lt_succ_of_le hlen
  simp only [Machine.addExtraAxis, withAxis, Machine.flushLookahead, hletter, hlong, ↓reduceIte]

/-- **REGISTRATION** of an axis that has no letter. -/
theorem Consistent.addExtraAxis (h : Consistent m) (axisPos : K) (hid : (m.axes id).gcodeId = none)
    (hvalid : isGcodeAxis letter) (hnew : some letter ∉ m.printer.registeredAxes) :
    (m.setGcodeId id (some letter)).addExtraAxis id letter axisPos
        = withAxis (m.setGcodeId id (some letter)) id letter axisPos ∧
      Consistent (withAxis (m.setGcodeId id (some letter)) id letter axisPos) := by
  have hnot : id ∉ m.extra := by
    intro hmem
    have hnone : none ∈ m.posAxes.map some := by
      rw [h.posAxes, h.registered, ← hid]
      exact mem_append_right _ (mem_map_of_mem hmem)
    obtain ⟨l, -, hl⟩ := mem_map.mp hnone
    cases hl
  have hids := gcodeId_withAxis m id letter axisPos
  refine ⟨addExtraAxis_eq (m := m.setGcodeId id (some letter)) axisPos
    (h.not_mem_posAxes hvalid hnew)
    (h.sized.commanded.trans h.length_posAxes.symm).le, ?_⟩
  obtain ⟨hb, hh⟩ := Sized.hasFour h.sized
  refine ⟨sized_updateExtraAxes hb hh ?_, ?_, ?_, ?_, ?_, ?_⟩
  · have hc := h.sized.commanded
    rw [length_axes] at hc ⊢
    show (m.printer.commandedPos ++ [axisPos]).length
      = 4 + (m.printer.registeredAxes ++ [some letter]).length
    rw [length_append, length_append, hc]
    rfl
  · show m.printer.registeredAxes ++ [some letter] = (m.extra ++ [id]).map _
    rw [map_append, map_singleton, hids id, if_pos rfl, h.registered]
    congr 1
    refine map_congr_left fun j hj => ?_
    have hne : j ≠ id := fun he => hnot (he ▸ hj)
    rw [hids, if_neg hne]
  · show (m.posAxes ++ [letter]).map some = _ ++ (m.printer.registeredAxes ++ [some letter])
    rw [map_append, h.posAxes, append_assoc]
    rfl
  · show (m.printer.registeredAxes ++ [some letter]).Nodup
    rw [← concat_eq_append]
    exact Nodup.concat hnew h.nodup
  · intro l hl
    rcases mem_append.mp hl with hold | hlast
    · exact h.valid l hold
    · rw [some.inj (mem_singleton.mp hlast)]
      exact hvalid
  · intro j hj
    replace hj : ¬ (if j = id then some letter else (m.axes j).gcodeId) = none := hids j ▸ hj
    show j ∈ m.extra ++ [id]
    by_cases he : j = id
    · rw [he]
      exact mem_append_right _ mem_cons_self
    · rw [if_neg he] at hj
      exact mem_append_left _ (h.extra j hj)

theorem Consistent.mem_registered (h : Consistent m) (hid : (m.axes id).gcodeId = some letter) :
    some letter ∈ m.printer.registeredAxes := by
  have hmem := h.extra id (by rw [hid]; exact some_ne_none letter)
  rw [h.registered, ← hid]
  exact mem_map_of_mem hmem

theorem getElem?_axes (p : Printer K) (k : Nat) : p.axes[4 + k]? = p.registeredAxes[k]? := by
  rw [add_comm]
  rfl

/-- The machine with axis `i` taken out of its lists. -/
def withoutAxis (m : Machine K) (i : Nat) : Machine K :=
  { m.flushLookahead with
    extra := m.extra.eraseIdx i
    posAxes := m.posAxes.eraseIdx (4 + i)
    printer := updateExtraAxes { m.printer with
      registeredAxes := m.printer.registeredAxes.eraseIdx i
      commandedPos := m.printer.commandedPos.eraseIdx (4 + i) } }

theorem gcodeId_withoutAxis (m : Machine K) (id : AxisId) (i : Nat) (j : AxisId) :
    (((withoutAxis m i).setGcodeId id none).axes j).gcodeId
      = if j = id then none else (m.axes j).gcodeId := by
  rw [gcodeId_setGcodeId, withoutAxis, gcodeId_flushLookahead]

theorem removeExtraAxis_eq {i : Nat} (hi : m.extra.idxOf? id = some i)
    (hc : 4 + i < m.printer.commandedPos.length) (hpos : 4 + i < m.posAxes.length)
    (hmap : Dict.get m.printer.axisMap letter ≠ none) :
    m.removeExtraAxis id letter = (withoutAxis m i, none) := by
  have hidx : m.flushLookahead.extra.idxOf? id = some i := hi
  simp only [Machine.removeExtraAxis, hidx]
  rw [if_neg]
  · rfl
  · rintro (hle | hle | hnone)
    · exact absurd hc (Nat.not_lt.mpr hle)
    · exact absurd hpos (Nat.not_lt.mpr hle)
    · exact hmap hnone

/-- **REMOVAL** of an axis that has a letter. -/
theorem Consistent.removeExtraAxis (h : Consistent m) (hid : (m.axes id).gcodeId = some letter) :
    ∃ i, m.extra[i]? = some id ∧ m.removeExtraAxis id letter = (withoutAxis m i, none) ∧
      Consistent ((withoutAxis m i).setGcodeId id none) := by
  have hmem := h.extra id (by rw [hid]; exact some_ne_none letter)
  obtain ⟨i, hi⟩ := isSome_iff_exists.mp (isSome_idxOf?.mpr hmem)
  obtain ⟨hlt, hget, -⟩ := idxOf?_eq_some_iff.mp hi
  have hget? : m.extra[i]? = some id := hget ▸ getElem?_eq_getElem hlt
  have hlen := h.length_registered
  have hax := length_axes m.printer
  have hpos := h.length_posAxes
  have hc := h.sized.commanded
  have hmap : Dict.get m.printer.axisMap letter ≠ none := by
    obtain ⟨k, hk⟩ := mem_iff_getElem?.mp (h.mem_registered hid)
    rw [get_axisMap h.nodup h.valid ((getElem?_axes m.printer k).trans hk)]
    exact some_ne_none _
  -- the other axes are those at the other places
  have hother : ∀ j, j ∈ m.extra.eraseIdx i ↔ j ≠ id ∧ j ∈ m.extra := by
    have herase : m.extra.erase id = m.extra.eraseIdx i := by rw [erase_eq_eraseIdx, hi]
    intro j
    rw [← herase, h.nodup_extra.mem_erase_iff]
  have hids := gcodeId_withoutAxis m id i
  refine ⟨i, hget?, removeExtraAxis_eq hi (by omega) (by omega) hmap, ?_⟩
  obtain ⟨hb, hh⟩ := Sized.hasFour h.sized
  refine ⟨sized_updateExtraAxes hb hh ?_, ?_, ?_, ?_, ?_, ?_⟩
  · rw [length_axes]
    show (m.printer.commandedPos.eraseIdx (4 + i)).length
      = 4 + (m.printer.registeredAxes.eraseIdx i).length
    rw [length_eraseIdx_of_lt (by omega), length_eraseIdx_of_lt (by omega)]
    omega
  · show m.printer.registeredAxes.eraseIdx i = (m.extra.eraseIdx i).map _
    rw [h.registered, eraseIdx_map]
    refine map_congr_left fun j hj => ?_
    rw [hids, if_neg ((hother j).mp hj).1]
  · show (m.posAxes.eraseIdx (4 + i)).map some = _ ++ m.printer.registeredAxes.eraseIdx i
    rw [← eraseIdx_map, h.posAxes, eraseIdx_append_of_length_le (Nat.le_add_right 4 i)]
    show _ ++ m.printer.registeredAxes.eraseIdx (4 + i - 4) = _
    rw [Nat.add_sub_cancel_left]
  · exact h.nodup.eraseIdx i
  · exact fun l hl => h.valid l (mem_of_mem_eraseIdx hl)
  · intro j hj
    replace hj : ¬ (if j = id then none else (m.axes j).gcodeId) = none := hids j ▸ hj
    show j ∈ m.extra.eraseIdx i
    by_cases he : j = id
    · rw [if_pos he] at hj
      exact absurd rfl hj
    · rw [if_neg he] at hj
      exact (hother j).mpr ⟨he, h.extra j hj⟩

end Pnp
