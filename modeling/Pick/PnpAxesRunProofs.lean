import Pick.PnpAxesProofs

/-! # The axes over whole runs

Every request keeps the lists of a machine in agreement.  The delicate one is
a tool change: it takes its target before the rotation axis goes, and uses it
when another has come. -/

namespace Pnp

open Attempt GcodeMove List ListHeap Option Pnptool

variable {K : Type} [Field K] {m : Machine K}

/-! ## Binding an axis -/

/-- What a change of the axes leaves alone. -/
structure SameTool (m m' : Machine K) : Prop where
  transform : m'.printer.transform = m.printer.transform
  tools : m'.tools = m.tools
  active : m'.active = m.active
  letter : m'.rGcodeLetter = m.rGcodeLetter
  zCoeffs : m'.zCoeffs = m.zCoeffs
  xyze : m'.printer.commandedPos.take 4 = m.printer.commandedPos.take 4

theorem SameTool.refl (m : Machine K) : SameTool m m := ⟨rfl, rfl, rfl, rfl, rfl, rfl⟩

theorem SameTool.trans {m₁ m₂ m₃ : Machine K} (h₁ : SameTool m₁ m₂)
    (h₂ : SameTool m₂ m₃) : SameTool m₁ m₃ where
  transform := h₂.transform.trans h₁.transform
  tools := h₂.tools.trans h₁.tools
  active := h₂.active.trans h₁.active
  letter := h₂.letter.trans h₁.letter
  zCoeffs := h₂.zCoeffs.trans h₁.zCoeffs
  xyze := h₂.xyze.trans h₁.xyze

/-- What a change of one axis leaves. -/
structure Rebound (id : AxisId) (m m' : Machine K) : Prop where
  consistent : Consistent m'
  sameTool : SameTool m m'
  boundR : m'.boundR = m.boundR
  others : ∀ j, j ≠ id → (m'.axes j).gcodeId = (m.axes j).gcodeId

theorem Rebound.refl (id : AxisId) (h : Consistent m) : Rebound id m m :=
  ⟨h, SameTool.refl m, rfl, fun _ _ => rfl⟩

variable {id : AxisId} {m' : Machine K}

theorem Rebound.trans {m₁ m₂ m₃ : Machine K}
    (h₁ : Rebound id m₁ m₂) (h₂ : Rebound id m₂ m₃) : Rebound id m₁ m₃ where
  consistent := h₂.consistent
  sameTool := h₁.sameTool.trans h₂.sameTool
  boundR := h₂.boundR.trans h₁.boundR
  others j hj := (h₂.others j hj).trans (h₁.others j hj)

theorem Rebound.reset (h : Rebound id m m') : Rebound id m m'.resetLastPosition where
  consistent := h.consistent.withPrinter (keeps_reset m'.printer)
  sameTool := h.sameTool.trans ⟨rfl, rfl, rfl, rfl, rfl, rfl⟩
  boundR := h.boundR
  others := h.others

/-- `unbind_gcode_axis` takes the letter from an axis. -/
theorem Consistent.unbind (h : Consistent m) (id : AxisId) :
    ∃ m', m.unbindGcodeAxis id = (m', none) ∧ Rebound id m m' ∧
      (m'.axes id).gcodeId = none ∧ m.extra.length ≤ m'.extra.length + 1 := by
  rw [Machine.unbindGcodeAxis]
  split
  · rename_i hid
    exact ⟨m, rfl, Rebound.refl id h, hid, Nat.le_succ _⟩
  · rename_i letter hid
    obtain ⟨i, hi, hremove, hcons⟩ := h.removeExtraAxis hid
    have hids := gcodeId_withoutAxis m id i
    have hlt := (List.getElem?_eq_some_iff.mp hi).1
    rw [hremove]
    refine ⟨_, rfl, ⟨hcons, ⟨rfl, rfl, rfl, rfl, rfl, ?_⟩, rfl, ?_⟩, ?_, ?_⟩
    · show (m.printer.commandedPos.eraseIdx (4 + i)).take 4 = _
      exact take_eraseIdx_eq_take_of_le _ _ _ (Nat.le_add_right 4 i)
    · intro j hj
      rw [hids, if_neg hj]
    · rw [hids, if_pos rfl]
    · show m.extra.length ≤ (m.extra.eraseIdx i).length + 1
      rw [length_eraseIdx_of_lt hlt]
      omega

/-- The registration of an axis without a letter is refused, or it succeeds. -/
theorem Consistent.registerAxis (h : Consistent m)
    (hid : (m.axes id).gcodeId = none) (letter : String) :
    (∃ msg, m.registerAxis id letter = (m, some (.command msg))) ∨
    (m.registerAxis id letter = (withAxis (m.setGcodeId id (some letter)) id
        letter (m.axes id).commandedPos, none) ∧
      Rebound id m (withAxis (m.setGcodeId id (some letter)) id letter
        (m.axes id).commandedPos)) := by
  rw [Machine.registerAxis]
  split
  · exact .inl ⟨_, rfl⟩
  · rename_i hvalid
    split
    · exact .inl ⟨_, rfl⟩
    · rename_i hnew
      have hnew' : some letter ∉ m.printer.registeredAxes :=
        fun hmem => hnew (mem_cons_of_mem _ hmem)
      obtain ⟨hadd, hcons⟩ := h.addExtraAxis (m.axes id).commandedPos hid (not_not.mp hvalid) hnew'
      dsimp only
      rw [hadd]
      refine .inr ⟨rfl, hcons, ⟨rfl, rfl, rfl, rfl, rfl, ?_⟩, rfl, ?_⟩
      · have hc := h.sized.commanded
        have hax := length_axes m.printer
        show (m.printer.commandedPos ++ [_]).take 4 = _
        exact take_append_of_le_length (by omega)
      · intro j hj
        rw [gcodeId_withAxis, if_neg hj]

/-- `bind_gcode_axis` gives an axis the letter, or leaves it without one. -/
theorem Consistent.bind (h : Consistent m) (id : AxisId) (letter : String) :
    ∃ m' e, m.bindGcodeAxis id letter = (m', e) ∧ Rebound id m m' ∧
      (e ≠ none → (m'.axes id).gcodeId = none) ∧
      ((m.axes id).gcodeId = none → e = none → m'.extra.length = m.extra.length + 1) := by
  rw [Machine.bindGcodeAxis]
  split
  · rename_i hid
    refine ⟨m, none, rfl, Rebound.refl id h, fun he => absurd rfl he, ?_⟩
    intro hnone
    rw [hid] at hnone
    cases hnone
  · obtain ⟨m₁, hunbind, hre, hnone, -⟩ := h.unbind id
    rw [hunbind, andThen_none]
    rcases hre.consistent.registerAxis hnone letter with ⟨msg, hreg⟩ | ⟨hreg, hre'⟩
    · rw [hreg]
      exact ⟨m₁, some (.command msg), rfl, hre, fun _ => hnone, nofun⟩
    · rw [hreg]
      refine ⟨_, none, rfl, (hre.trans hre').reset, fun he => absurd rfl he, ?_⟩
      intro hid _
      -- there was nothing to unbind
      rw [Machine.unbindGcodeAxis, hid] at hunbind
      obtain rfl := (Prod.mk.inj hunbind).1
      show (m.extra ++ [id]).length = _
      rw [length_append]
      rfl

/-- A consistent machine whose virtual axis has a letter only as the rotation axis. -/
structure Steady (m : Machine K) : Prop where
  consistent : Consistent m
  virtual : (m.axes .virtualR).gcodeId ≠ none → m.boundR = .virtualR

theorem Steady.withPrinter (h : Steady m) {q : Printer K}
    (hq : Keeps m.printer q) : Steady { m with printer := q } :=
  ⟨h.consistent.withPrinter hq, h.virtual⟩

theorem Steady.length_axes (h : Steady m) : m.printer.axes.length = 4 + m.extra.length := by
  rw [GcodeMove.length_axes, h.consistent.length_registered]

/-- `_rebind_r`.  Without a tool no axis is lost. -/
theorem Steady.rebindR (h : Steady m) (tool : Option (ToolEntry K)) :
    ∃ m' e, m.rebindR tool = (m', e) ∧ Steady m' ∧ SameTool m m' ∧
      (tool = none → e = none → m.extra.length ≤ m'.extra.length) := by
  obtain ⟨m₁, hunbind, hre₁, hnone, hlen⟩ := h.consistent.unbind m.boundR
  -- now the virtual axis has no letter
  have hvirtual : (m₁.axes .virtualR).gcodeId = none := by
    by_cases hb : m.boundR = .virtualR
    · rw [← hb]
      exact hnone
    · rw [hre₁.others _ fun he => hb he.symm]
      by_contra hne
      exact hb (h.virtual hne)
  rw [Machine.rebindR]
  generalize hwant : wantedR tool = want
  obtain ⟨m₂, e, hbind, hre₂, herr, hadd⟩ := hre₁.consistent.bind want m₁.rGcodeLetter.1
  rw [hunbind, andThen_none, hbind]
  have hsame := hre₁.sameTool.trans hre₂.sameTool
  cases e with
  | some err =>
    refine ⟨m₂, some err, rfl, ⟨hre₂.consistent, fun hne => ?_⟩, hsame, nofun⟩
    by_cases hw : want = .virtualR
    · subst hw
      exact absurd (herr (some_ne_none err)) hne
    · rw [hre₂.others _ fun he => hw he.symm] at hne
      exact absurd hvirtual hne
  | none =>
    refine ⟨{ m₂ with boundR := want }, none, rfl, ⟨{ hre₂.consistent with }, fun hne => ?_⟩,
      hsame.trans ⟨rfl, rfl, rfl, rfl, rfl, rfl⟩, ?_⟩
    · by_contra hw
      replace hne : (m₂.axes .virtualR).gcodeId ≠ none := hne
      rw [hre₂.others _ fun he => hw he.symm] at hne
      exact hne hvirtual
    · rintro rfl -
      subst hwant
      show m.extra.length ≤ m₂.extra.length
      rw [hadd hvirtual rfl]
      exact hlen

/-! ## Tools -/

theorem Steady.rebindZ (h : Steady m) (tool : Option (ToolEntry K)) : Steady (m.rebindZ tool) :=
  ⟨{ h.consistent with }, h.virtual⟩

/-- What `storeActive` does to the tools: none is lost. -/
theorem storeActive_spec (m : Machine K) :
    ∃ tools, m.storeActive = { m with tools := tools } ∧
      ∀ n, Dict.get m.tools n ≠ none → Dict.get tools n ≠ none := by
  rw [Machine.storeActive]
  split
  · rename_i name letter tool _ _
    split
    · rename_i entry _
      refine ⟨_, rfl, fun n hn => ?_⟩
      by_cases hname : name = n
      · rw [hname, Dict.get_set_self]
        exact some_ne_none _
      · rw [Dict.get_set_ne _ _ hname]
        exact hn
    · exact ⟨m.tools, rfl, fun _ hn => hn⟩
  · exact ⟨m.tools, rfl, fun _ hn => hn⟩

theorem Steady.setActive (h : Steady m) (name : Option String) : Steady (m.setActive name) := by
  obtain ⟨tools, hstore, -⟩ := storeActive_spec m
  rw [Machine.setActive, hstore]
  exact ⟨{ h.consistent with sized := { h.consistent.sized with } }, h.virtual⟩

/-- A tool that is known gets active. -/
theorem hasTool_setActive {name : Option String} {entry : ToolEntry K}
    (h : name.bind (Dict.get m.tools) = some entry) :
    ∃ letter tool, (m.setActive name).printer.transform = .pnp letter (some tool) := by
  obtain ⟨n, rfl, hn⟩ := bind_eq_some_iff.mp h
  obtain ⟨tools, hstore, htools⟩ := storeActive_spec m
  obtain ⟨entry', hentry⟩ := ne_none_iff_exists'.mp
    (htools n (hn ▸ some_ne_none entry))
  refine ⟨m.rGcodeLetter, entry'.tool, ?_⟩
  rw [Machine.setActive, hstore]
  simp only [bind_some, hentry, map_some]

/-! ## Moves -/

theorem Steady.length_getPosition (h : Steady m) : m.getPosition.length = m.printer.axes.length :=
  length_positionWithTransform h.consistent.sized.commanded

omit [Field K] in
theorem length_overlay {curr xs : List K} : ∀ {dest : List (Option K)},
    overlay curr dest = some xs → xs.length = curr.length := by
  intro dest h
  induction curr, dest using overlay.induct generalizing xs with
  | case1 curr => rw [overlay] at h; rw [some.inj h]
  | case2 dest ih => exact ih h
  | case3 v dest => exact nomatch h
  | case4 c curr d dest ih =>
    rw [overlay] at h
    obtain ⟨ys, hys, rfl⟩ := map_eq_some_iff.mp h
    rw [length_cons, length_cons, ih hys]

section Moves

variable [LinearOrder K] {check : Check K} {p : Printer K} {newpos : List K}
  {speed : K}

theorem keeps_toolSafeMove {letter : RLetter} {tool : Tool K} {dest : List (Option K)} :
    Keeps p (toolSafeMove check letter tool p dest speed).1 := by
  intro hp
  have hcurr := length_positionWithTransform hp.commanded
  rw [toolSafeMove]
  split
  · exact ⟨hp, rfl⟩
  · rename_i xs hxs
    have hlen : xs.length = p.axes.length := (length_overlay hxs).trans hcurr
    have hset : ∀ ys : List K, (ys.set 2 0).length = ys.length := fun ys => length_set
    cases tool with
    | camera cam => exact moveWalk_keeps.toolMove hlen.le hp
    | nozzle trig tool =>
      -- the axes stay, so the targets fit the later moves, too
      refine keeps_andThen (moveWalk_keeps.toolMove ?_) (fun q _ hq => ?_) hp
      · exact ((hset _).trans hcurr).le
      · refine keeps_andThen (moveWalk_keeps.toolMove ?_) fun r _ hr => ?_
        · exact ((hset xs).trans (hlen.trans hq.symm)).le
        · exact moveWalk_keeps.toolMove (hlen.trans (hr.trans hq).symm).le

/-- A safe move; without a tool it needs a target that is not too long. -/
theorem keeps_safeMove
    (hlen : (∀ letter tool, p.transform ≠ .pnp letter (some tool)) →
      newpos.length ≤ p.axes.length) :
    Keeps p (safeMove check p newpos speed).1 := by
  rw [safeMove]
  split
  · rename_i htr
    refine moveWalk_keeps.toolheadMove (hlen fun letter tool h => ?_)
    exact nomatch htr.symm.trans h
  · rename_i htr
    refine moveWalk_keeps.toolheadMove (hlen fun letter tool h => ?_)
    exact nomatch htr.symm.trans h
  · exact keeps_toolSafeMove

theorem Steady.move (h : Steady m) (hlen : newpos.length ≤ m.printer.axes.length) :
    Steady (m.move check newpos speed).1 :=
  h.withPrinter (moveWalk_keeps.moveWithTransform hlen)

theorem Steady.safeMove (h : Steady m)
    (hlen : (∀ letter tool, m.printer.transform ≠ .pnp letter (some tool)) →
      newpos.length ≤ m.printer.axes.length) :
    Steady (m.safeMove check newpos speed).1 :=
  h.withPrinter (keeps_safeMove hlen)

/-! ## Tool changes -/

theorem Steady.parkZActuator (h : Steady m) : Steady (m.parkZActuator check).1 := by
  rw [Machine.parkZActuator]
  split
  · refine h.move ?_
    rw [length_set, h.length_getPosition]
  · exact h

/-- Parking is a move of the printer. -/
theorem parkZActuator_ok (h : m.parkZActuator check = (m', none)) :
    ∃ q, m' = { m with printer := q } := by
  rw [Machine.parkZActuator] at h
  split at h
  · exact ⟨_, (Prod.mk.inj h).1.symm⟩
  · exact ⟨m.printer, (Prod.mk.inj h).1.symm⟩

/-- The change of a tool.  If there is no tool then, no axis has been lost. -/
theorem Steady.changeTool (h : Steady m) (check : Check K) (name : Option String) :
    ∃ m' e, m.changeTool check name = (m', e) ∧ Steady m' ∧
      (e = none → (∀ letter tool, m'.printer.transform ≠ .pnp letter (some tool)) →
        m.printer.axes.length ≤ m'.printer.axes.length) := by
  rw [Machine.changeTool]
  have hpark : Steady (m.parkZActuator check).1 := h.parkZActuator
  generalize hentry : name.bind (Dict.get m.tools) = entry
  cases hm₁ : m.parkZActuator check with
  | mk m₁ e₁ =>
    rw [hm₁] at hpark
    cases e₁ with
    | some err => exact ⟨m₁, some err, rfl, hpark, nofun⟩
    | none =>
      obtain ⟨q, rfl⟩ := parkZActuator_ok hm₁
      obtain ⟨m₂, e₂, hrebind, h₂, hsame, hlen⟩ := (hpark.rebindZ entry).rebindR entry
      rw [andThen_none, hrebind]
      cases e₂ with
      | some err => exact ⟨m₂, some err, rfl, h₂, nofun⟩
      | none =>
        refine ⟨_, none, rfl, h₂.setActive name, fun _ hnone => ?_⟩
        have htools : m₂.tools = m.tools := hsame.tools
        cases entry with
        | some entry =>
          rw [← htools] at hentry
          obtain ⟨letter, tool, htr⟩ := hasTool_setActive hentry
          exact absurd htr (hnone letter tool)
        | none =>
          rw [h.length_axes, (h₂.setActive name).length_axes]
          have hextra : (m₂.setActive name).extra = m₂.extra := by
            obtain ⟨tools, hstore, -⟩ := storeActive_spec m₂
            rw [Machine.setActive, hstore]
          rw [hextra]
          exact Nat.add_le_add_left (hlen rfl rfl) 4

/-- **A TOOL CHANGE KEEPS THE LISTS**, with or without an error. -/
theorem Steady.selectTool (h : Steady m) (name : Option String)
    (wantMove : Bool) : Steady (m.selectTool check name wantMove).1 := by
  obtain ⟨m₁, e, hchange, h₁, hlen⟩ := h.changeTool check name
  rw [Machine.selectTool, hchange]
  cases e with
  | some err => exact h₁
  | none =>
    rw [andThen_none]
    refine andThen_invariant ?_ fun m₂ _ h₂ => h₂.withPrinter (keeps_reset _)
    split
    · refine h₁.safeMove fun hnone => ?_
      rw [h.length_getPosition]
      exact hlen rfl hnone
    · exact h₁

/-! ## Other requests -/

/-- A move or a safe move to a position of the right length. -/
theorem Steady.moveOrSafeMove (h : Steady m) (b : Prop) [Decidable b]
    (hlen : newpos.length = m.getPosition.length) :
    Steady (if b then m.safeMove check newpos speed else m.move check newpos speed).1 := by
  have hle := (hlen.trans h.length_getPosition).le
  split
  · exact h.safeMove fun _ => hle
  · exact h.move hle

omit [LinearOrder K] in
theorem length_jogTarget (jog : Coords K) (h : 5 ≤ m.getPosition.length) :
    (m.jogTarget jog).length = m.getPosition.length := by
  rw [Machine.jogTarget, length_append, length_zipWith, length_take, length_drop]
  show min _ 5 + _ = _
  omega

omit [LinearOrder K] in
theorem length_posFromDict {d : Location K} {pos : List K}
    (h : m.posFromDict d = some pos) : pos.length = m.getPosition.length := by
  rw [Machine.posFromDict] at h
  split at h
  · cases h
  · rename_i xs hxs _
    rw [← some.inj h, length_overlay hxs]
  · rename_i xs r hxs _
    split at h
    · cases h
    · split at h
      · rw [← some.inj h, length_set, length_overlay hxs]
      · cases h

omit [LinearOrder K] in
/-- `MANUAL_STEPPER GCODE_AXIS=`. -/
theorem Steady.commandWithGcodeAxis (h : Steady m) (n : Nat) (gcodeAxis : String) :
    Steady (m.commandWithGcodeAxis (.manualStepper n) gcodeAxis).1 := by
  rw [Machine.commandWithGcodeAxis]
  split
  · rename_i letter hid
    split
    · exact h
    · obtain ⟨i, -, hremove, hcons⟩ := h.consistent.removeExtraAxis hid
      rw [hremove, andThen_none]
      refine ⟨hcons, fun hne => h.virtual ?_⟩
      rwa [gcodeId_withoutAxis, if_neg (by exact nofun)] at hne
  · rename_i hid
    split
    · exact h
    · rcases h.consistent.registerAxis hid gcodeAxis with ⟨msg, hreg⟩ | ⟨hreg, hre⟩
      · rw [hreg]
        exact h
      · rw [hreg]
        refine ⟨hre.consistent, fun hne => ?_⟩
        rw [hre.others _ (by exact nofun)] at hne
        exact hre.boundR.trans (h.virtual hne)

end Moves

/-! ## Runs -/

section Runs

variable [LinearOrder K] {check : Check K}

/-- A record that the request restores fits the axes there are. -/
def Request.RestoresFitting (m : Machine K) (r : Request K) : Prop :=
  ∀ c, r = .gcode c → c.RestoresFitting m.printer

/-- The target of the safe move that a request asks the manager for. -/
def Request.safeTarget (m : Machine K) : Request K → Option (List K)
  | .pnpGoto loc _ => m.posFromDict loc
  | .jog d _ safe => if safe ∧ ¬ (d.x = 0 ∧ d.y = 0) then some (m.jogTarget d) else none
  | .move target _ safe =>
    if safe ∧ ¬ (target.x = none ∧ target.y = none) then
      overlay m.getPosition target.toList
    else none
  | .gcode _ | .manualStepper _ _ | .pnpTool _ _ | .tool _ _ => none

/-- **ALL THAT A REQUEST CAN DO**: a G-code command, another axis for a stepper, nothing, a tool
    change, or a move, by a safe move exactly if the request has a target for one. -/
inductive Handled (check : Check K) (m : Machine K) : Request K → Outcome K → Prop where
  | gcode (c : Command K) : Handled check m (.gcode c) (m.on fun p => GcodeMove.handle check p c)
  | manualStepper (n : Nat) (gcodeAxis : String) :
      Handled check m (.manualStepper n gcodeAxis)
        (m.commandWithGcodeAxis (.manualStepper n) gcodeAxis)
  | same {r : Request K} {e : Option Error} (hsafe : e = none → r.safeTarget m = none) :
      Handled check m r (m, e)
  | selectTool {r : Request K} (hsafe : r.safeTarget m = none) (name : Option String)
      (wantMove : Bool) : Handled check m r (m.selectTool check name wantMove)
  | move {r : Request K} {newpos : List K} (b : Prop) [Decidable b] (speed : K)
      (hlen : newpos.length = m.getPosition.length)
      (hsafe : r.safeTarget m = if b then some newpos else none) :
      Handled check m r (if b then m.safeMove check newpos speed
        else m.move check newpos speed)

variable {r : Request K} {o : Outcome K}

theorem handled (h : m.handle check r = o) : Handled check m r o := by
  subst h
  cases r with
  | gcode c => exact .gcode c
  | manualStepper n gcodeAxis => exact .manualStepper n gcodeAxis
  | pnpTool set wantMove =>
    show Handled check m _ (m.cmdPnpTool check set wantMove)
    unfold Machine.cmdPnpTool
    split
    · exact .same fun _ => rfl
    · split
      · exact .selectTool rfl none wantMove
      · split
        · exact .same fun _ => rfl
        · split
          · exact .same fun _ => rfl
          · exact .selectTool rfl _ wantMove
  | tool tool wantMove =>
    show Handled check m _ (m.webhooksTool check tool wantMove)
    unfold Machine.webhooksTool
    split
    · exact .same fun _ => rfl
    · split
      · exact .same fun _ => rfl
      · split
        · exact .same fun _ => rfl
        · exact .selectTool rfl _ wantMove
  | pnpGoto loc speed =>
    rw [Machine.handle, Machine.cmdPnpGoto]
    split
    · exact .same nofun
    · rename_i pos hpos
      have hmove : Handled check m (.pnpGoto loc speed) (if True then _ else _) :=
        .move True (speed.getD m.printer.speed) (length_posFromDict hpos)
          (hpos.trans (if_pos trivial).symm)
      rwa [if_pos trivial] at hmove
  | jog d f safe =>
    rw [Machine.handle, Machine.webhooksJog]
    split
    · exact .same nofun
    · rename_i hfive
      exact .move _ _ (length_jogTarget d (Nat.le_of_not_lt hfive)) rfl
  | move target f safe =>
    rw [Machine.handle, Machine.webhooksMove]
    split
    · exact .same nofun
    · rename_i pos hpos
      refine .move _ _ (length_overlay hpos) ?_
      rw [Request.safeTarget, hpos]

/-- **ONE REQUEST KEEPS THE LISTS**, with or without an error. -/
theorem Steady.handle (h : Steady m) (hr : r.RestoresFitting m) : Steady (m.handle check r).1 := by
  generalize ho : m.handle check r = o
  cases handled ho with
  | gcode c => exact h.withPrinter (keeps_handle (hr c rfl))
  | manualStepper n gcodeAxis => exact h.commandWithGcodeAxis n gcodeAxis
  | same => exact h
  | selectTool _ name wantMove => exact h.selectTool name wantMove
  | move b speed hlen => exact h.moveOrSafeMove b hlen

/-- A step leaves what the request leaves, or that with the position read back. -/
theorem step_cases (hstep : m.step check r = some m') :
    m' = (m.handle check r).1 ∨ m' = (m.handle check r).1.resetLastPosition := by
  rw [Machine.step] at hstep
  split at hstep
  · rename_i hm₁
    rw [hm₁]
    exact .inl (some.inj hstep).symm
  · rename_i hm₁
    rw [hm₁, ← some.inj hstep]
    split
    · exact .inr rfl
    · exact .inl rfl
  · cases hstep

theorem Steady.step (h : Steady m) (hr : r.RestoresFitting m)
    (hstep : m.step check r = some m') : Steady m' := by
  obtain rfl | rfl := step_cases hstep
  · exact h.handle hr
  · exact (h.handle hr).withPrinter (keeps_reset _)

/-- Every record that a run restores fits the axes there are. -/
def AllFit : Machine K → List (Check K × Request K) → Prop
  | _, [] => True
  | m, r :: rs => r.2.RestoresFitting m ∧ ∀ m', m.step r.1 r.2 = some m' → AllFit m' rs

theorem Steady.run {rs : List (Check K × Request K)} :
    ∀ {m m' : Machine K}, Steady m → AllFit m rs → m.run rs = some m' → Steady m' := by
  induction rs with
  | nil =>
    intro m m' h _ hrun
    exact some.inj hrun ▸ h
  | cons r rs ih =>
    intro m m' h hfit hrun
    rw [Machine.run, foldlM_cons] at hrun
    obtain ⟨m₁, hstep, hrest⟩ := bind_eq_some_iff.mp hrun
    exact ih (h.step hfit.1 hstep) (hfit.2 m₁ hstep) hrest

omit [LinearOrder K] in
theorem steady_ready {letter : RLetter} (hletter : isGcodeAxis letter.1)
    (pos : Coords K) (tools : List (String × ToolEntry K))
    (commandedPos : AxisId → K) (firstZ fallbackZ : ZStepperId) :
    Steady (Machine.ready letter pos tools commandedPos firstZ fallbackZ) := by
  have hzeros : (List.replicate 5 (0 : K)).length = 5 := length_replicate
  refine ⟨⟨⟨⟨?_, hzeros⟩, ?_, ⟨?_, hzeros⟩, rfl⟩, ?_, rfl, ?_, ?_, ?_⟩, fun _ => rfl⟩
  · exact Nat.zero_lt_succ 3
  · exact hasLength_alloc (length_positionWithTransform rfl)
  · exact Nat.lt_of_sub_eq_succ rfl
  · show [some letter.1] = [if AxisId.virtualR = .virtualR then some letter.1
      else none]
    rw [if_pos rfl]
  · exact nodup_singleton _
  · intro l hl
    rw [some.inj (mem_singleton.mp hl)]
    exact hletter
  · intro id hid
    by_cases he : id = .virtualR
    · exact mem_singleton.mpr he
    · replace hid : (if id = .virtualR then some letter.1 else none) ≠ none := hid
      rw [if_neg he] at hid
      exact absurd rfl hid

/-- Every list has a coordinate for X, Y, Z, the extruder and each axis behind
    it, and the axis map sends every letter to the place of its axis. -/
structure AxesAgree (m : Machine K) : Prop where
  base : m.printer.base.length = 4 + m.extra.length
  homing : m.printer.homing.length = 4 + m.extra.length
  last : m.printer.last.length = 4 + m.extra.length
  commanded : m.printer.commandedPos.length = 4 + m.extra.length
  posAxes : m.posAxes.length = 4 + m.extra.length
  first : ∀ (i : Nat) l, ["X", "Y", "Z", "E"][i]? = some l → Dict.get m.printer.axisMap l = some i
  axisMap : ∀ (i : Nat) id, m.extra[i]? = some id → ∃ letter,
    (m.axes id).gcodeId = some letter ∧ m.posAxes[4 + i]? = some letter ∧
      Dict.get m.printer.axisMap letter = some (4 + i)

omit [LinearOrder K] in
theorem Steady.axesAgree (h : Steady m) : AxesAgree m := by
  have hlen := h.length_axes
  have hc := h.consistent
  refine ⟨hc.sized.base.2.trans hlen, hc.sized.homing.2.trans hlen,
    hc.sized.last.2.trans hlen, hc.sized.commanded.trans hlen,
    hc.length_posAxes.trans hlen, ?_, ?_⟩
  · intro i l hi
    refine get_axisMap hc.nodup hc.valid ?_
    have hi' : (["X", "Y", "Z", "E"].map some)[i]? = some (some l) := by
      rw [getElem?_map, hi, map_some]
    have hlt := (List.getElem?_eq_some_iff.mp hi').1
    exact (getElem?_append_left hlt).trans hi'
  · intro i id hi
    have hreg : m.printer.registeredAxes[i]? = some (m.axes id).gcodeId := by
      rw [hc.registered, getElem?_map, hi, map_some]
    -- every name of `pos_axes` is a letter
    have hplace : (m.posAxes[4 + i]?).map some = some (m.axes id).gcodeId := by
      rw [← getElem?_map, hc.posAxes, getElem?_append_right (Nat.le_add_right 4 i)]
      show m.printer.registeredAxes[4 + i - 4]? = _
      rw [Nat.add_sub_cancel_left, hreg]
    obtain ⟨letter, hletter, hid⟩ := map_eq_some_iff.mp hplace
    refine ⟨letter, hid.symm, hletter, get_axisMap hc.nodup hc.valid ?_⟩
    rw [getElem?_axes, hreg, hid]

/-- **THE AXES AGREE**: whatever axes and tools come and go and whatever commands and requests
    are run, with errors or not, every list has one coordinate for each axis and every letter
    leads to its axis, as long as each record restored fits the axes. -/
theorem axesAgree_of_run {letter : RLetter} (hletter : isGcodeAxis letter.1)
    (pos : Coords K) (tools : List (String × ToolEntry K))
    (commandedPos : AxisId → K) (firstZ fallbackZ : ZStepperId)
    {rs : List (Check K × Request K)} {m : Machine K}
    (hfit : AllFit (Machine.ready letter pos tools commandedPos firstZ fallbackZ) rs)
    (hrun : (Machine.ready letter pos tools commandedPos firstZ fallbackZ).run
      rs = some m) : AxesAgree m :=
  ((steady_ready hletter pos tools commandedPos firstZ fallbackZ).run hfit hrun).axesAgree

end Runs

/-- A position with all five coordinates. -/
theorem exists_of_five_le {α : Type} {pos : List α} (h : 5 ≤ pos.length) :
    ∃ x y z e r rest, pos = x :: y :: z :: e :: r :: rest := by
  rcases pos with _ | ⟨x, _ | ⟨y, _ | ⟨z, _ | ⟨e, _ | ⟨r, rest⟩⟩⟩⟩⟩
  iterate 5 simp at h
  exact ⟨x, y, z, e, r, rest, rfl⟩

/-! ## A machine with one manual stepper -/

theorem r_free : "R" ∉ ["X", "Y", "Z", "E", "F", "N"] := by decide

/-- A ready machine at the origin, with the rotation letter `R`. -/
def originMachine : Machine ℚ := .ready ⟨"R", r_free⟩ ⟨0, 0, 0, 0, 0⟩ [] (fun _ => 0) 0 0

/-- Nothing is objected to. -/
def noCheck : Check ℚ := fun _ _ _ => none

/-- A command without parameters. -/
def noParams : Gcmd ℚ := ⟨"", []⟩

/-- A record is saved, an axis registered, and the record restored. -/
def saveRegisterRestore : List (Check ℚ × Request ℚ) :=
  [(noCheck, .gcode (.saveGcodeState noParams)), (noCheck, .manualStepper 0 "A"),
    (noCheck, .gcode (.restoreGcodeState noParams))]

/-- With the record saved behind the registration the axes agree. -/
theorem axesAgree_after_restore : ∃ m, originMachine.run
    [(noCheck, .manualStepper 0 "A"),
      (noCheck, .gcode (.saveGcodeState noParams)),
      (noCheck, .gcode (.restoreGcodeState noParams))] = some m ∧
    m.extra.length = 2 ∧ AxesAgree m := by
  refine Result.exists_some_and_of_any (by decide +kernel) fun m hm =>
    axesAgree_of_run (by decide) _ _ _ _ _ ?_ hm
  refine ⟨nofun, fun m₁ h₁ => ?_⟩
  cases h₁
  refine ⟨?_, fun m₂ h₂ => ?_⟩
  · rintro c hc gcmd state rfl
    cases hc
  · cases h₂
    refine ⟨?_, fun m₃ _ => trivial⟩
    rintro c hc gcmd state rfl hstate
    obtain rfl : noParams = gcmd := by
      injection hc with hc
      injection hc
    cases hstate
    rw [SavedState.HasLength, HasLength, HasLength, HasLength]
    decide +kernel

/-- A record from before a registration brings back lists that are too short. -/
theorem axes_disagree_after_restore : ∃ m,
    originMachine.run saveRegisterRestore = some m ∧
    m.printer.base.length = 5 ∧ m.extra.length = 2 ∧ ¬ AxesAgree m := by
  obtain ⟨m, hm, hbase, hextra⟩ : ∃ m, originMachine.run saveRegisterRestore = some m ∧
      m.printer.base.length = 5 ∧ m.extra.length = 2 :=
    Result.exists_some_of_any (by decide +kernel)
  refine ⟨m, hm, hbase, hextra, fun h => ?_⟩
  have hagree := h.base
  rw [hbase, hextra] at hagree
  exact absurd hagree (by decide)

end Pnp
