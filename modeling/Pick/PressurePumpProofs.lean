import Pick.NumberProofs

/-! # The pressure pump (`klippy/extras/pressure_pump.py`)

A pump with a pressure sensor and a control with hysteresis.  Each reading sends a
PWM value to the pump.  The pump counts as off while its target is 0, but the
control knows nothing of this: to it 0 is a pressure like any other. -/

namespace PressurePump

variable {K : Type} [Field K] [LinearOrder K]

/-! ## Model -/

/-- The options of a `[pressure_pump]` section, with the bounds that the
    configuration is checked against. -/
structure Config (K : Type) [Field K] [LinearOrder K] where
  offset : K
  minPressure : K
  maxPressure : K
  maxPower : K
  offBelow : K
  smoothTime : K
  maxDelta : K
  above_min : minPressure < maxPressure
  maxPower_pos : 0 < maxPower
  maxPower_le : maxPower ≤ 1
  offBelow_nonneg : 0 ≤ offBelow
  offBelow_le : offBelow ≤ 1
  smoothTime_pos : 0 < smoothTime
  maxDelta_pos : 0 < maxDelta

/-- The values of the options that a section leaves out. -/
def Config.default [IsStrictOrderedRing K] : Config K where
  offset := 0
  minPressure := -100000
  maxPressure := 100000
  maxPower := 1
  offBelow := 0
  smoothTime := 1
  maxDelta := 2
  above_min := by norm_num
  maxPower_pos := one_pos
  maxPower_le := le_rfl
  offBelow_nonneg := le_rfl
  offBelow_le := zero_le_one
  smoothTime_pos := one_pos
  maxDelta_pos := two_pos

/-- A value sent to the pump, with the target at that time, by the control or not. -/
structure Sent (K : Type) where
  printTime : K
  value : K
  target : K
  byControl : Bool

/-- The fields of `PressurePump`, `on` of its control, whether the micro-controller and the host
    are shut down, and what has been sent. -/
structure State (K : Type) where
  lastPressure : K
  measuredMin : K
  measuredMax : K
  smoothedPressure : K
  targetPressure : K
  lastPressureTime : K
  lastPwmValue : K
  on : Bool
  mcuIsShutdown : Bool
  inShutdownState : Bool
  sent : List (Sent K)

/-- The state after `__init__`. -/
def State.initial : State K where
  lastPressure := 0
  measuredMin := 99999999
  measuredMax := -99999999
  smoothedPressure := 0
  targetPressure := 0
  lastPressureTime := 0
  lastPwmValue := 0
  on := false
  mcuIsShutdown := false
  inShutdownState := false
  sent := []

section Model

variable (cfg : Config K)

/-- The value that `_apply_pwm` makes of the one it is given. -/
def applied (value : K) : K :=
  let value := if value < cfg.offBelow then 0 else value
  max 0 (min cfg.maxPower (value * cfg.maxPower))

/-- `_apply_pwm`.  Without a time `print_time_to_clock` raises before anything is
    sent; this only happens in a shutdown handler, where the exception ends. -/
def State.applyPwm (s : State K) (printTime : Option K) (value : K) (byControl : Bool) : State K :=
  let s := { s with lastPwmValue := applied cfg value }
  match printTime with
  | none => s
  | some time =>
    { s with
      sent := s.sent ++ [⟨time, s.lastPwmValue, s.targetPressure, byControl⟩] }

/-- `set_pwm`. -/
def State.setPwm (s : State K) (readTime : Option K) (value : K) (byControl : Bool) : State K :=
  if s.mcuIsShutdown then s
  else s.applyPwm cfg (readTime.map (· + 2 / 10)) value byControl

/-- The new `on` of `ControlBangBang.update`. -/
def switched (on : Bool) (pressure targetPressure : K) : Bool :=
  if on = false ∧ pressure ≥ targetPressure + cfg.maxDelta then true
  else if on = true ∧ pressure ≤ targetPressure - cfg.maxDelta then false
  else on

/-- `ControlBangBang.update`. -/
def State.update (s : State K) (readTime pressure targetPressure : K) : State K :=
  let on := switched cfg s.on pressure targetPressure
  { s with on := on }.setPwm cfg (some readTime) (if on then 1 else 0) true

/-- `pressure_callback`.  A reading of 0 is taken for none. -/
def State.pressureCallback (s : State K) (readTime pressure : K) : State K :=
  if pressure ≠ 0 then
    let pressure := pressure + cfg.offset
    let timeDiff := readTime - s.lastPressureTime
    let s := { s with
      lastPressureTime := readTime
      lastPressure := pressure
      measuredMin := min s.measuredMin pressure
      measuredMax := max s.measuredMax pressure }
    let s := s.update cfg readTime pressure s.targetPressure
    let pressureDiff := pressure - s.smoothedPressure
    let adjTime := min (timeDiff * (1 / cfg.smoothTime)) 1
    { s with smoothedPressure := s.smoothedPressure + pressureDiff * adjTime }
  else s

/-- A requested pressure that is out of range. -/
structure OutOfRange (K : Type) where
  pressure : K
  minPressure : K
  maxPressure : K

/-- `set_pressure`. -/
def State.setPressure (s : State K) (pressure : K) : State K × Option (OutOfRange K) :=
  if pressure ≠ 0 ∧ (pressure < cfg.minPressure ∨ pressure > cfg.maxPressure) then
    (s, some ⟨pressure, cfg.minPressure, cfg.maxPressure⟩)
  else ({ s with targetPressure := pressure }, none)

/-- `_kill`. -/
def State.kill (s : State K) (printTime : Option K) : State K := s.setPwm cfg printTime 0 false

/-- What can happen to a pump.  `mcuShutdown` is the micro-controller's message, `shutdown` the
    host's `invoke_shutdown`: either may come first, and readings may come between them. -/
inductive Event (K : Type) where
  | reading (readTime pressure : K)
  | setPumpPressure (target : Option K)
  | turnOffPumps
  | requestRestart (printTime : K)
  | mcuShutdown
  | shutdown

/-- One event. -/
def State.step (s : State K) : Event K → State K
  | .reading readTime pressure => s.pressureCallback cfg readTime pressure
  | .setPumpPressure target => (s.setPressure cfg (target.getD 0)).1
  | .turnOffPumps => (s.setPressure cfg 0).1
  | .requestRestart printTime => s.kill cfg (some printTime)
  | .mcuShutdown => { s with mcuIsShutdown := true }
  | .shutdown =>
    if s.inShutdownState then s
    else
      -- `turn_off_all_pumps` was registered before the pump's own handler
      let s := { s with inShutdownState := true }
      (s.setPressure cfg 0).1.kill cfg none

/-- A run of events. -/
def State.run (s : State K) (events : List (Event K)) : State K :=
  events.foldl (fun s event => s.step cfg event) s

end Model

/-! ## Off means off -/

/-- Whatever the control has sent while the target was 0 is 0. -/
def State.StaysOff (s : State K) : Prop :=
  ∀ x ∈ s.sent, x.byControl = true → x.target = 0 → x.value = 0

/-- A reading that leaves a pump off: the control is off and the pressure is not high enough to
    switch it on, or it is on and the pressure is low enough to switch it off. -/
def State.Quiet (cfg : Config K) (s : State K) : Event K → Prop
  | .reading _ pressure =>
    s.mcuIsShutdown = false → pressure ≠ 0 → s.targetPressure = 0 →
      if s.on then pressure + cfg.offset ≤ -cfg.maxDelta
      else pressure + cfg.offset < cfg.maxDelta
  | _ => True

/-- Every reading of a run is quiet. -/
def State.AllQuiet (cfg : Config K) : State K → List (Event K) → Prop
  | _, [] => True
  | s, event :: events => s.Quiet cfg event ∧ (s.step cfg event).AllQuiet cfg events

instance (cfg : Config K) (s : State K) : (event : Event K) →
    Decidable (s.Quiet cfg event)
  | .reading _ _ => inferInstanceAs (Decidable (_ → _ → _ → ite _ _ _))
  | .setPumpPressure _ | .turnOffPumps | .requestRestart _ | .mcuShutdown
  | .shutdown => inferInstanceAs (Decidable True)

instance State.decidableAllQuiet (cfg : Config K) :
    (s : State K) → (events : List (Event K)) → Decidable (s.AllQuiet cfg events)
  | _, [] => inferInstanceAs (Decidable True)
  | s, event :: events =>
    haveI := State.decidableAllQuiet cfg (s.step cfg event) events
    inferInstanceAs (Decidable (_ ∧ _))

variable {cfg : Config K} {s s' : State K}

theorem switched_zero (on : Bool) (pressure : K) :
    switched cfg on pressure 0 = false ↔
      if on then pressure ≤ -cfg.maxDelta else pressure < cfg.maxDelta := by
  rw [switched, zero_add, zero_sub]
  cases on with
  | true =>
    rw [if_neg fun h => nomatch h.1]
    by_cases hlow : pressure ≤ -cfg.maxDelta
    · rw [if_pos ⟨rfl, hlow⟩]
      exact iff_of_true rfl hlow
    · rw [if_neg fun h => hlow h.2]
      exact iff_of_false nofun hlow
  | false =>
    by_cases hhigh : pressure ≥ cfg.maxDelta
    · rw [if_pos ⟨rfl, hhigh⟩]
      exact iff_of_false nofun (not_lt.mpr hhigh)
    · rw [if_neg fun h => hhigh h.2, if_neg fun h => nomatch h.1]
      exact iff_of_true rfl (not_le.mp hhigh)

/-- What the control sends is 0 exactly if it is off. -/
theorem applied_eq_zero [IsStrictOrderedRing K] (on : Bool) :
    applied cfg (if on then 1 else 0) = 0 ↔ on = false := by
  rw [applied]
  cases on with
  | false =>
    rw [if_neg Bool.false_ne_true, ite_self, zero_mul, min_eq_right cfg.maxPower_pos.le, max_self]
    exact iff_of_true rfl rfl
  | true =>
    rw [if_pos rfl, if_neg (not_lt.mpr cfg.offBelow_le), one_mul, min_self,
      max_eq_right cfg.maxPower_pos.le]
    exact iff_of_false cfg.maxPower_pos.ne' nofun

/-! ### What an event sends -/

omit [LinearOrder K] in
theorem State.staysOff_congr (h : s'.sent = s.sent) : s'.StaysOff ↔ s.StaysOff := by
  rw [State.StaysOff, State.StaysOff, h]

omit [LinearOrder K] in
theorem State.staysOff_append {x : Sent K} (h : s'.sent = s.sent ++ [x]) :
    s'.StaysOff ↔ s.StaysOff ∧ (x.byControl = true → x.target = 0 → x.value = 0) := by
  rw [State.StaysOff, State.StaysOff, h, List.forall_mem_append, List.forall_mem_singleton]

theorem setPressure_sent (pressure : K) : (s.setPressure cfg pressure).1.sent = s.sent := by
  rw [State.setPressure]
  split
  · rfl
  · rfl

theorem pressureCallback_sent (hmcu : s.mcuIsShutdown = false)
    (readTime : K) {pressure : K} (hpressure : pressure ≠ 0) :
    (s.pressureCallback cfg readTime pressure).sent = s.sent ++
      [⟨readTime + 2 / 10,
        applied cfg
          (if switched cfg s.on (pressure + cfg.offset) s.targetPressure then 1
            else 0),
        s.targetPressure, true⟩] := by
  simp [State.pressureCallback, State.update, State.setPwm, State.applyPwm, hmcu, hpressure]

theorem pressureCallback_sent_zero (readTime : K) :
    (s.pressureCallback cfg readTime 0).sent = s.sent := by
  rw [State.pressureCallback, if_neg (not_not.mpr rfl)]

theorem pressureCallback_sent_shutdown (hmcu : s.mcuIsShutdown = true) (readTime pressure : K) :
    (s.pressureCallback cfg readTime pressure).sent = s.sent := by
  rw [State.pressureCallback]
  split
  · simp [State.update, State.setPwm, hmcu]
  · rfl

theorem shutdown_sent : (s.step cfg .shutdown).sent = s.sent := by
  rw [State.step]
  split
  · rfl
  · -- the pump's own handler has no time to send its 0 with
    rw [State.kill, State.setPwm]
    split
    · exact setPressure_sent 0
    · exact setPressure_sent 0

/-- A stop for a restart is not sent by the control. -/
theorem staysOff_requestRestart (printTime : K) :
    (s.step cfg (.requestRestart printTime)).StaysOff ↔ s.StaysOff := by
  rw [State.step, State.kill, State.setPwm]
  split
  · rfl
  · refine (State.staysOff_append rfl).trans (and_iff_left ?_)
    exact nofun

/-! ### Whole runs -/

section Run

variable [IsStrictOrderedRing K]

theorem staysOff_reading (readTime pressure : K) :
    (s.step cfg (.reading readTime pressure)).StaysOff ↔
      s.StaysOff ∧ s.Quiet cfg (.reading readTime pressure) := by
  by_cases hmcu : s.mcuIsShutdown = true
  · rw [State.step, State.staysOff_congr (pressureCallback_sent_shutdown hmcu readTime pressure)]
    have hquiet : s.Quiet cfg (.reading readTime pressure) := fun h =>
      absurd (h.symm.trans hmcu) Bool.false_ne_true
    exact (and_iff_left hquiet).symm
  rw [Bool.not_eq_true] at hmcu
  by_cases hpressure : pressure = 0
  · subst hpressure
    rw [State.step, State.staysOff_congr (pressureCallback_sent_zero readTime)]
    exact (and_iff_left fun _ h => absurd rfl h).symm
  rw [State.step, State.staysOff_append (pressureCallback_sent hmcu readTime hpressure)]
  refine and_congr_right fun _ => ?_
  -- both sides speak of a target of 0 only
  constructor
  · intro h _ _ htarget
    have hoff := (applied_eq_zero _).mp (h rfl htarget)
    rw [htarget] at hoff
    exact (switched_zero s.on _).mp hoff
  · intro h _ htarget
    refine (applied_eq_zero _).mpr ?_
    rw [show s.targetPressure = 0 from htarget]
    exact (switched_zero s.on _).mpr (h hmcu hpressure htarget)

theorem staysOff_step (event : Event K) :
    (s.step cfg event).StaysOff ↔ s.StaysOff ∧ s.Quiet cfg event := by
  cases event with
  | reading readTime pressure => exact staysOff_reading readTime pressure
  | setPumpPressure target =>
    rw [State.step, State.staysOff_congr (setPressure_sent _)]
    exact (and_iff_left trivial).symm
  | turnOffPumps =>
    rw [State.step, State.staysOff_congr (setPressure_sent 0)]
    exact (and_iff_left trivial).symm
  | requestRestart printTime =>
    rw [staysOff_requestRestart]
    exact (and_iff_left trivial).symm
  | mcuShutdown => exact (and_iff_left trivial).symm
  | shutdown =>
    rw [State.staysOff_congr shutdown_sent]
    exact (and_iff_left trivial).symm

theorem staysOff_run (events : List (Event K)) :
    (s.run cfg events).StaysOff ↔ s.StaysOff ∧ s.AllQuiet cfg events := by
  induction events generalizing s with
  | nil => exact (and_iff_left trivial).symm
  | cons event events ih =>
    calc (s.run cfg (event :: events)).StaysOff
      _ ↔ (s.step cfg event).StaysOff ∧ (s.step cfg event).AllQuiet cfg events := ih
      _ ↔ s.StaysOff ∧ s.AllQuiet cfg (event :: events) := by
        rw [staysOff_step, and_assoc]
        rfl

/-- **A PUMP STAYS OFF**: the control sends nothing but 0 while the target is 0 exactly if each
    reading meanwhile is below `max_delta` with the control off, and at most `-max_delta` with
    it on. -/
theorem off_pump_stays_off (cfg : Config K) (events : List (Event K)) :
    ((State.initial : State K).run cfg events).StaysOff ↔
      (State.initial : State K).AllQuiet cfg events := by
  rw [staysOff_run]
  exact and_iff_right nofun

end Run

/-- A pump that reaches its vacuum before it is turned off. -/
theorem off_pump_stays_off_after_vacuum :
    ((State.initial : State ℚ).run Config.default
      [.setPumpPressure (some (-40)), .reading 1 (-10), .reading 2 (-42),
       .turnOffPumps, .reading 3 (-20)]).StaysOff :=
  (off_pump_stays_off Config.default _).mpr (by decide +kernel)

/-- A pump turned off while it runs: at a pressure of -1 it is still sent full power. -/
theorem turned_off_pump_runs :
    ¬ ((State.initial : State ℚ).run Config.default
      [.setPumpPressure (some (-40)), .reading 1 (-10), .turnOffPumps,
       .reading 2 (-1)]).StaysOff := by
  intro h
  have hquiet := (staysOff_run _).mp h |>.2
  exact absurd hquiet (by decide +kernel)

end PressurePump
