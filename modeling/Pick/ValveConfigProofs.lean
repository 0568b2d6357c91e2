import Pick.GcodeMoveProofs

/-! # Configuring a valve (`klippy/extras/pressure_valve.py`)

`VALVE_CONFIG` assigns the parameters of a valve one after the other.  The upper
limit of a range is compared with the lower one only where it is given, and a
parameter that is refused leaves those before it assigned. -/

namespace PressureValve

open GcodeMove

variable {K : Type} [LinearOrder K] (repr : K → String)

/-- What `VALVE_CONFIG` assigns. -/
structure Valve (K : Type) where
  partOnMin : K
  partOnMax : K
  partOffMin : K
  partOffMax : K
  timeout : K
  failPick : ℤ
  failCheck : ℤ

/-- Both ranges are in order. -/
def Valve.Ranges (v : Valve K) : Prop := v.partOnMin < v.partOnMax ∧ v.partOffMin < v.partOffMax

/-- `get_float` with a limit, which the default need not be above. -/
def getAbove (gcmd : Gcmd K) (name : String) (default above : K) : Except Error K :=
  match gcmd.getFloat name with
  | .error e => .error e
  | .ok none => .ok default
  | .ok (some value) =>
    if value ≤ above then
      .error (.command ("Error on '" ++ gcmd.commandline ++ "': " ++ name
        ++ " must be above " ++ repr above))
    else .ok value

/-- The assignments of `cmd_VALVE_CONFIG`, in their order. -/
def assignments (gcmd : Gcmd K) : List (Valve K → Except Error (Valve K)) :=
  [fun v => (gcmd.getFloat "ON_MIN").map fun x => { v with partOnMin := x.getD v.partOnMin },
   fun v => (getAbove repr gcmd "ON_MAX" v.partOnMax v.partOnMin).map
      fun x => { v with partOnMax := x },
   fun v => (gcmd.getFloat "OFF_MIN").map fun x => { v with partOffMin := x.getD v.partOffMin },
   fun v => (getAbove repr gcmd "OFF_MAX" v.partOffMax v.partOffMin).map
      fun x => { v with partOffMax := x },
   fun v => (gcmd.getFloat "TIMEOUT").map fun x => { v with timeout := x.getD v.timeout },
   fun v => (gcmd.get "FAIL_PICK" Arg.int).map fun x => { v with failPick := x.getD v.failPick },
   fun v => (gcmd.get "FAIL_CHECK" Arg.int).map fun x => { v with failCheck := x.getD v.failCheck }]

/-- An error ends the command, and what is assigned stays so. -/
def assignAll : List (Valve K → Except Error (Valve K)) → Valve K →
    Except Error Unit × Valve K
  | [], v => (.ok (), v)
  | assign :: rest, v =>
    match assign v with
    | .error e => (.error e, v)
    | .ok v => assignAll rest v

/-- `cmd_VALVE_CONFIG`. -/
def cmdValveConfig (gcmd : Gcmd K) : Valve K → Except Error Unit × Valve K :=
  assignAll (assignments repr gcmd)

/-- The ranges are valid all along, and a rejected command changes nothing. -/
def StaysValid (v : Valve K) : List (Gcmd K) → Prop
  | [] => v.Ranges
  | gcmd :: gcmds =>
    v.Ranges ∧
      (∀ e, (cmdValveConfig repr gcmd v).1 = .error e → (cmdValveConfig repr gcmd v).2 = v) ∧
      StaysValid (cmdValveConfig repr gcmd v).2 gcmds

/-! ## Harmless commands -/

/-- An upper limit that is given is above the lower one, given or in force; a lower
    limit alone is below the upper one in force. -/
structure InRange (low high : Option K) (low₀ high₀ : K) : Prop where
  above : ∀ x ∈ high, low.getD low₀ < x
  below : high = none → ∀ x ∈ low, x < high₀

/-- Every parameter can be read, and the limits fit those in force. -/
def Fits (gcmd : Gcmd K) (v : Valve K) : Prop :=
  ∃ onMin onMax offMin offMax,
    (gcmd.getFloat "ON_MIN" = .ok onMin ∧ gcmd.getFloat "ON_MAX" = .ok onMax ∧
      InRange onMin onMax v.partOnMin v.partOnMax) ∧
    (gcmd.getFloat "OFF_MIN" = .ok offMin ∧ gcmd.getFloat "OFF_MAX" = .ok offMax ∧
      InRange offMin offMax v.partOffMin v.partOffMax) ∧
    ∃ timeout failPick failCheck, gcmd.getFloat "TIMEOUT" = .ok timeout ∧
      gcmd.get "FAIL_PICK" Arg.int = .ok failPick ∧
      gcmd.get "FAIL_CHECK" Arg.int = .ok failCheck

/-- A parameter is refused, and none before it is new. -/
def RefusedFirst (gcmd : Gcmd K) (v : Valve K) : Prop :=
  ∃ pre assign post, assignments repr gcmd = pre ++ assign :: post ∧
    (∀ before ∈ pre, before v = .ok v) ∧ ∃ e, assign v = .error e

/-- Each command fits or is refused first. -/
def HarmlessRun (v : Valve K) : List (Gcmd K) → Prop
  | [] => True
  | gcmd :: gcmds =>
    (Fits gcmd v ∨ RefusedFirst repr gcmd v) ∧ HarmlessRun (cmdValveConfig repr gcmd v).2 gcmds

variable {repr} {gcmd : Gcmd K} {v : Valve K} {low high : Option K} {low₀ high₀ : K}

theorem InRange.getAbove {name : String} (h : InRange low high low₀ high₀)
    (hget : gcmd.getFloat name = .ok high) :
    getAbove repr gcmd name high₀ (low.getD low₀) = .ok (high.getD high₀) := by
  rw [PressureValve.getAbove, hget]
  cases high with
  | none => rfl
  | some x => exact if_neg (not_le.mpr (h.above x rfl))

theorem InRange.lt (h : InRange low high low₀ high₀) (h₀ : low₀ < high₀) :
    low.getD low₀ < high.getD high₀ := by
  cases high with
  | some x => exact h.above x rfl
  | none =>
    cases low with
    | some x => exact h.below rfl x rfl
    | none => exact h₀

/-- A command that fits is accepted, and the ranges stay valid. -/
theorem Fits.accepted (repr : K → String) (h : Fits gcmd v) (hv : v.Ranges) :
    ∃ v', cmdValveConfig repr gcmd v = (.ok (), v') ∧ v'.Ranges := by
  obtain ⟨onMin, onMax, offMin, offMax, ⟨hmin, hmax, hon⟩, ⟨hmin', hmax', hoff⟩,
    timeout, failPick, failCheck, htimeout, hpick, hcheck⟩ := h
  refine ⟨⟨onMin.getD v.partOnMin, onMax.getD v.partOnMax, offMin.getD v.partOffMin,
    offMax.getD v.partOffMax, timeout.getD v.timeout, failPick.getD v.failPick,
    failCheck.getD v.failCheck⟩, ?_, hon.lt hv.1, hoff.lt hv.2⟩
  simp only [cmdValveConfig, assignments, assignAll, Except.map, hmin, hon.getAbove hmax,
    hmin', hoff.getAbove hmax', htimeout, hpick, hcheck]

/-- A command that is refused at once changes nothing. -/
theorem RefusedFirst.unchanged (h : RefusedFirst repr gcmd v) :
    (cmdValveConfig repr gcmd v).2 = v := by
  obtain ⟨pre, assign, post, hsplit, hpre, e, herror⟩ := h
  rw [cmdValveConfig, hsplit]
  clear hsplit
  induction pre with
  | nil => rw [List.nil_append, assignAll, herror]
  | cons before pre ih =>
    rw [List.cons_append, assignAll, hpre before List.mem_cons_self]
    exact ih fun before' h' => hpre before' (List.mem_cons_of_mem _ h')

/-- **VALVE RANGES STAY VALID** over every run of commands that fit or are refused at once. -/
theorem staysValid_of_harmless (hv : v.Ranges) {gcmds : List (Gcmd K)}
    (hrun : HarmlessRun repr v gcmds) : StaysValid repr v gcmds := by
  induction gcmds generalizing v with
  | nil => exact hv
  | cons gcmd gcmds ih =>
    rcases hrun with ⟨hfits | hrefused, hrest⟩
    · obtain ⟨v', hcmd, hv'⟩ := hfits.accepted repr hv
      rw [hcmd] at hrest
      rw [StaysValid, hcmd]
      exact ⟨hv, nofun, ih hv' hrest⟩
    · have hsame := hrefused.unchanged
      rw [hsame] at hrest
      rw [StaysValid, hsame]
      exact ⟨hv, fun _ _ => rfl, ih hv hrest⟩

/-- The defaults of the `[pressure_valve]` section. -/
def defaultValve : Valve ℚ := ⟨-50, -20, -20, 0, 1, 0, 0⟩

/-- An integer argument. -/
def number (text : String) (x : ℤ) : Arg ℚ := ⟨text, some x, some x⟩

theorem staysValid_of_harmless_shift :
    StaysValid (fun _ => "") defaultValve
      [⟨"", [("ON_MIN", number "-15" (-15)), ("ON_MAX", number "-5" (-5))]⟩] := by
  refine staysValid_of_harmless ⟨by decide +kernel, by decide +kernel⟩ ⟨.inl ?_, trivial⟩
  refine ⟨_, _, _, _, ⟨rfl, rfl, ?_, nofun⟩, ⟨rfl, rfl, nofun, fun _ => nofun⟩,
    _, _, _, rfl, rfl, rfl⟩
  rintro _ ⟨⟩
  decide +kernel

/-- A lower limit above the upper one is accepted; one that is refused with its upper
    limit stays assigned. -/
theorem valveConfig_breaks_ranges :
    ¬ StaysValid (fun _ => "") defaultValve [⟨"", [("ON_MIN", number "-10" (-10))]⟩] ∧
      ¬ StaysValid (fun _ => "") defaultValve
        [⟨"", [("ON_MIN", number "-30" (-30)), ("ON_MAX", number "-40" (-40))]⟩] := by
  refine ⟨?_, ?_⟩
  · rintro ⟨-, -, hranges⟩
    exact absurd hranges.1 (by decide +kernel)
  · rintro ⟨-, hsame, -⟩
    have hmin := congrArg Valve.partOnMin (hsame _ rfl)
    exact absurd hmin (by decide +kernel)

end PressureValve
