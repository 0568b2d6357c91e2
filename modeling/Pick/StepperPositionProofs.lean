import Pick.StepperRunProofs
import Pick.TurnCounterProofs

/-! # The position that the firmware reports

`stepper_get_position`, `stepper_stop` and `stepper_shutdown` of `src/stepper.c`.
The position of a stepper is a counter that only counts up: it is negated at each
change of direction, credited with whole moves when they are loaded, and read by
taking away the steps still to do. -/

namespace Stepper

open List TurnCounter

/-! ## Model -/

/-- `stepper_get_position`. -/
def stepperGetPosition (s : State) : UInt32 :=
  let position := if s.singleSched then s.position - s.count else s.position - s.count / 2
  if position &&& 0x80000000 ≠ 0 then -position else position

/-- The position that `command_stepper_get_position` sends. -/
def commandStepperGetPosition (s : State) : Int32 := (stepperGetPosition s - positionBias).toInt32

variable (b : Board)

/-- Has the step pin an "unstep" state to return to? -/
def State.unsteps (s : State) : Bool := !s.singleSched || (b.haveAvrOptimization && s.optimizedPath)

/-- `stepper_stop`. -/
def stepperStop (s : State) : State :=
  { s with
    nextStepTime := 0
    waketime := 0
    position := -stepperGetPosition s
    count := 0
    lastDir := false
    nextDir := false
    needReset := true
    haveAdd := false
    dirPin := false
    stepPin := if s.unsteps b then s.invertStep else s.stepPin
    mq := [] }

/-- `stepper_shutdown`, which clears the queue first. -/
def stepperShutdown (s : State) : State := stepperStop b { s with mq := [] }

/-- What can happen to a stepper.  A move may come so `late` that the scheduler
    shuts down when its timer is added. -/
inductive Action where
  | queueStep (interval count add : UInt32) (late : Bool)
  | setNextStepDir (dir : UInt32)
  | resetStepClock (clock : UInt32)
  | timer (reads : Reads)
  | stop
  | shutdown

/-- A stepper, whether its timer is in the scheduler's list, and the level of the
    direction pin at each pulse so far. -/
structure Motor where
  s : State
  armed : Bool
  pulses : List Bool

/-- The pulse of a change of the step pin: each edge is one, unless the pin
    returns to its "unstep" state in between. -/
def State.pulse (s : State) (level level' dir : Bool) : List Bool :=
  if level ≠ level' ∧ (s.unsteps b → level = s.invertStep) then [dir] else []

/-- The pulses of a timer event that ends in `s'`; `stepper_event_avr` toggles
    the step pin twice. -/
def State.pulses (s s' : State) : List Bool :=
  match s.path b with
  | .avr => s.pulse b s.stepPin (!s.stepPin) s.dirPin ++ s.pulse b (!s.stepPin) s.stepPin s'.dirPin
  | _ => s.pulse b s.stepPin (!s.stepPin) s.dirPin

/-- The stepper is stopped in this state. -/
def Motor.halt (motor : Motor) (s : State) : Motor :=
  ⟨stepperShutdown b s, false,
    motor.pulses ++ s.pulse b s.stepPin (stepperShutdown b s).stepPin false⟩

/-- A new stepper. -/
def Motor.start (invertStep : Int8) (stepPulseTicks : UInt32) : Motor :=
  ⟨commandConfigStepper b invertStep stepPulseTicks, false, []⟩

/-- One action. -/
def Motor.act (motor : Motor) : Action → Motor
  | .queueStep interval count add late =>
    match commandQueueStep b interval count add motor.s with
    | .error (_, s) => motor.halt b s
    | .ok (added, s) =>
      if added && late then motor.halt b s
      else { motor with s := s, armed := motor.armed || added }
  | .setNextStepDir dir => { motor with s := commandSetNextStepDir dir motor.s }
  | .resetStepClock clock =>
    match commandResetStepClock clock motor.s with
    | .error (_, s) => motor.halt b s
    | .ok s => { motor with s := s }
  | .timer reads =>
    if motor.armed then
      match motor.s.event b reads with
      | .error (_, s) => { motor with pulses := motor.pulses ++ motor.s.pulses b s }.halt b s
      | .ok (sched, s) => ⟨s, sched = .reschedule, motor.pulses ++ motor.s.pulses b s⟩
    else motor
  | .stop =>
    ⟨stepperStop b motor.s, false, motor.pulses
      ++ motor.s.pulse b motor.s.stepPin (stepperStop b motor.s).stepPin false⟩
  | .shutdown => motor.halt b motor.s

/-- A run of actions. -/
def Motor.run (motor : Motor) (actions : List Action) : Motor :=
  actions.foldl (fun motor action => motor.act b action) motor

/-! ## Reading the counter -/

/-- The counter, less the steps still to do. -/
def State.here (s : State) : UInt32 :=
  if s.singleSched then s.position - s.count else s.position - s.count / 2

/-- The steps of the next timer event. -/
def State.due (s : State) : UInt32 := if s.singleSched = true ∨ s.count.toNat % 2 = 0 then 1 else 0

variable {b} {s s' : State} {m : Move} {mq : List Move} {up : Bool}

theorem stepperGetPosition_of_here {x : ℤ} (hx : |x| < 2 ^ 30)
    (h : s.here = signed up (biased x)) : stepperGetPosition s = biased x := by
  show magnitude s.here = biased x
  rw [h, magnitude_biased hx]

/-- What is sent is the value without its bias. -/
theorem commandStepperGetPosition_of_here {x : ℤ} (hx : |x| < 2 ^ 30)
    (h : s.here = signed up (biased x)) : (commandStepperGetPosition s).toInt = x := by
  have hword := toNat_biased hx
  have hsub := Words.natCast_toNat_sub (biased x) positionBias
  have hbias : positionBias.toNat = 2 ^ 30 := rfl
  rw [commandStepperGetPosition, stepperGetPosition_of_here hx h, Words.toInt_toInt32]
  rw [hbias, hword] at hsub
  rw [abs_lt] at hx
  split <;> omega

/-- A timer event that counts down by one. -/
theorem here_countdown (hsingle : s'.singleSched = s.singleSched)
    (hposition : s'.position = s.position) (hcount : s'.count.toNat + 1 = s.count.toNat) :
    s'.here = s.here + s.due := by
  rw [State.here, State.here, State.due, hsingle, hposition]
  by_cases h : s.singleSched = true
  · have hword : s.count = s'.count + 1 := by
      apply UInt32.toNat_inj.mp
      have hlt := s.count.toNat_lt
      rw [UInt32.toNat_add, UInt32.toNat_one]
      omega
    rw [if_pos h, if_pos h, if_pos (.inl h), hword]
    abel
  · rw [if_neg h, if_neg h]
    by_cases heven : s.count.toNat % 2 = 0
    · have hword : s.count / 2 = s'.count / 2 + 1 := by
        apply UInt32.toNat_inj.mp
        have hlt := s.count.toNat_lt
        rw [UInt32.toNat_add, UInt32.toNat_div, UInt32.toNat_div, UInt32.toNat_one]
        show s.count.toNat / 2 = (s'.count.toNat / 2 + 1) % 2 ^ 32
        omega
      rw [if_pos (.inr heven), hword]
      abel
    · have hword : s.count / 2 = s'.count / 2 := by
        apply UInt32.toNat_inj.mp
        rw [UInt32.toNat_div, UInt32.toNat_div]
        show s.count.toNat / 2 = s'.count.toNat / 2
        omega
      rw [if_neg (not_or.mpr ⟨h, heven⟩), hword, add_zero]

/-- At the last event of a move only its step, if any, is missing. -/
theorem position_of_one (hone : s.count.toNat = 1) : s.position = s.here + s.due := by
  have hcount : s.count = 1 := UInt32.toNat_inj.mp hone
  rw [State.here, State.due, hcount]
  by_cases h : s.singleSched = true
  · rw [if_pos h, if_pos (.inl h), sub_add_cancel]
  · rw [if_neg h, if_neg (not_or.mpr ⟨h, by decide⟩), add_zero]
    show s.position = s.position - 0
    rw [sub_zero]

theorem here_of_zero (hzero : s.count = 0) : s.here = s.position := by
  rw [State.here, hzero]
  split
  · exact sub_zero _
  · exact sub_zero _

/-! ## Loading a move -/

/-- What the configuration of a stepper fixes for good. -/
structure Fixed (s s' : State) : Prop where
  func : s'.func = s.func
  singleSched : s'.singleSched = s.singleSched
  optimizedPath : s'.optimizedPath = s.optimizedPath
  invertStep : s'.invertStep = s.invertStep

theorem Fixed.trans {s₁ : State} (h : Fixed s s₁) (h' : Fixed s₁ s') : Fixed s s' :=
  ⟨h'.1.trans h.1, h'.2.trans h.2, h'.3.trans h.3, h'.4.trans h.4⟩

theorem Fixed.configured (h : Fixed s s') (hs : s.Configured b) : s'.Configured b :=
  hs.congr h.func h.singleSched h.optimizedPath

theorem Fixed.unsteps (h : Fixed s s') : s'.unsteps b = s.unsteps b := by
  rw [State.unsteps, State.unsteps, h.singleSched, h.optimizedPath]

/-- Where a piece of code leaves the stepper, whether it shuts down or not. -/
def outcome : Exec (Sched × State) → State
  | .ok r => r.2
  | .error r => r.2

/-- The move `m` is credited, and none of its steps done. -/
structure Credits (s : State) (m : Move) (s' : State) : Prop where
  fixed : Fixed s s'
  stepPin : s'.stepPin = s.stepPin
  position : s'.position = signed (!m.dir) s.position + m.count.toUInt32
  count : s'.count = s.eventsOf m.count

theorem Credits.here (h : Credits s m s') : s'.here = signed (!m.dir) s.position := by
  rw [State.here, h.position, h.count, h.fixed.singleSched, State.eventsOf]
  split
  · exact add_sub_cancel_right _ _
  · have hhalf : m.count.toUInt32 * 2 / 2 = m.count.toUInt32 := by
      apply UInt32.toNat_inj.mp
      have hlt := m.count.toNat_lt
      rw [UInt32.toNat_div, UInt32.toNat_mul, UInt16.toNat_toUInt32]
      show m.count.toNat * 2 % 2 ^ 32 / 2 = m.count.toNat
      omega
    rw [hhalf]
    exact add_sub_cancel_right _ _

theorem loadNext_credits (turned : UInt32) (hs : s.Configured b)
    (hmq : s.mq = m :: mq) : Credits s m (outcome (loadNext b turned s)) := by
  have hposition : (if m.dir then -s.position else s.position) = signed (!m.dir) s.position := by
    cases m.dir <;> rfl
  rw [loadNext, hmq]
  dsimp only
  rw [hs.branches.1, hs.branches.2, hposition]
  cases hp : s.path b with
  | full =>
    show Credits s m (outcome ((loadFull b turned m _).map _))
    rw [loadFull]
    dsimp only
    split
    · exact ⟨⟨rfl, rfl, rfl, rfl⟩, rfl, rfl, rfl⟩
    · exact ⟨⟨rfl, rfl, rfl, rfl⟩, rfl, rfl, rfl⟩
  | edge | avr =>
    have hsingle := hs.single (by simp [hp])
    refine ⟨⟨rfl, rfl, rfl, rfl⟩, rfl, rfl, ?_⟩
    rw [State.eventsOf, if_pos hsingle]
    rfl

/-! ## Timer events -/

/-- The stepper has done the steps of a timer event, and the counter has been
    negated if there was a `turn`. -/
structure Ticks (s s' : State) (turn : Bool) : Prop where
  fixed : Fixed s s'
  here : s'.here = signed (!turn) (s.here + s.due)

/-- What a timer event does to the pins, unless it shuts down. -/
def Pins (s : State) (turn pin : Bool) (r : Exec (Sched × State)) : Prop :=
  ∀ sched s', r = .ok (sched, s') → s'.dirPin = (s.dirPin ^^ turn) ∧ s'.stepPin = pin

/-- The last event of a move; `s₁` is the stepper when the next one is loaded. -/
theorem load_ticks {s₁ : State} (turned : UInt32) (hs : s₁.Configured b)
    (hfixed : Fixed s s₁) (hposition : s₁.position = s.here + s.due) (hdir : s₁.dirPin = s.dirPin) :
    ∃ turn, Ticks s (outcome (loadNext b turned s₁)) turn ∧
      Pins s turn s₁.stepPin (loadNext b turned s₁) := by
  cases hmq : s₁.mq with
  | nil =>
    have hload : loadNext b turned s₁ = .ok (.done, { s₁ with count := 0 }) := by rw [loadNext, hmq]
    rw [hload]
    refine ⟨false, ⟨{ hfixed with }, ?_⟩, ?_⟩
    · exact (here_of_zero rfl).trans hposition
    · intro sched s' h
      cases h
      exact ⟨hdir.trans (Bool.xor_false _).symm, rfl⟩
  | cons m mq =>
    have hcredits := loadNext_credits turned hs hmq
    refine ⟨m.dir, ⟨hfixed.trans hcredits.fixed, ?_⟩, ?_⟩
    · rw [hcredits.here, hposition]
    · intro sched s' h
      have hloads := (loadNext_cons hs hmq h).2
      rw [h] at hcredits
      refine ⟨?_, hcredits.stepPin⟩
      rw [hloads.dirPin, hdir]

/-- **WHAT A TIMER EVENT COUNTS**, for each of the three functions. -/
theorem event_ticks (reads : Reads) (hs : s.Valid b) (hc : s.count ≠ 0) :
    ∃ turn, Ticks s (outcome (s.event b reads)) turn ∧
      Pins s turn (if s.path b = .avr then s.stepPin else !s.stepPin) (s.event b reads) := by
  have hcount := Words.toNat_sub_one hc
  have hcounts := event_counts reads hs hc
  generalize s.event b reads = r at hcounts ⊢
  cases hcounts with
  | unstep hp _ _ =>
    refine ⟨false, ⟨⟨rfl, rfl, rfl, rfl⟩, here_countdown rfl rfl hcount⟩, ?_⟩
    intro sched s' h
    cases h
    rw [if_neg (by rw [hp]; exact nofun)]
    exact ⟨(Bool.xor_false _).symm, rfl⟩
  | next htwice _ _ _ _ =>
    refine ⟨false, ⟨⟨rfl, rfl, rfl, rfl⟩, here_countdown rfl rfl hcount⟩, ?_⟩
    intro sched s' h
    cases h
    rw [htwice, Bool.cond_decide]
    exact ⟨(Bool.xor_false _).symm, rfl⟩
  | @last _ waketime _ htwice hone _ _ hr =>
    obtain ⟨turn, hticks, hpins⟩ := @load_ticks b s
      { s with stepPin := !s.stepPin, waketime := waketime } reads.turned
      { hs with } ⟨rfl, rfl, rfl, rfl⟩ (position_of_one hone) rfl
    subst hr
    refine ⟨turn, ?_, ?_⟩
    · generalize loadNext b reads.turned _ = loaded at hticks ⊢
      cases loaded with
      | error e => exact hticks
      | ok r => exact { hticks with fixed := { hticks.fixed with } }
    · intro sched s' h
      obtain ⟨⟨sched₁, s₁⟩, hload, heq⟩ := Result.map_eq_ok h
      cases heq
      obtain ⟨hdir, hpin⟩ := hpins sched₁ s₁ hload
      refine ⟨hdir, ?_⟩
      dsimp only
      rw [htwice, Bool.cond_decide, hpin, Bool.not_not]

/-! ## Pulses -/

variable (b) in
/-- A pin with an "unstep" state is in it whenever the next event does a step. -/
def State.Pinned (s : State) : Prop :=
  s.unsteps b = true → (s.stepPin = s.invertStep ↔ (s.singleSched = true ∨ s.count.toNat % 2 = 0))

theorem unsteps_of_avr (hs : s.Configured b) (hp : s.path b = .avr) : s.unsteps b = true := by
  rw [State.unsteps, hs.branches.2, hp]
  exact Bool.or_true _

theorem unsteps_of_ne_avr (hs : s.Configured b) (hp : s.path b ≠ .avr) :
    s.unsteps b = !s.singleSched := by
  rw [State.unsteps, hs.branches.2, decide_eq_false hp, Bool.or_false]

theorem pulse_toggle (s : State) (level dir : Bool) :
    s.pulse b level (!level) dir
      = if s.unsteps b = true → level = s.invertStep then [dir] else [] := by
  have hne : level ≠ !level := by cases level <;> decide
  rw [State.pulse]
  by_cases h : s.unsteps b = true → level = s.invertStep
  · rw [if_pos h, if_pos ⟨hne, h⟩]
  · rw [if_neg h, if_neg fun h' => h h'.2]

/-- **THE PULSES OF A TIMER EVENT** are the steps that are due. -/
theorem pulses_eq (hs : s.Configured b) (hpin : s.Pinned b) (s' : State) :
    s.pulses b s' = if s.singleSched = true ∨ s.count.toNat % 2 = 0 then [s.dirPin] else [] := by
  by_cases hp : s.path b = .avr
  · have hunsteps := unsteps_of_avr hs hp
    have hsingle := hs.single (by rw [hp]; exact nofun)
    have hlevel := (hpin hunsteps).mpr (.inl hsingle)
    -- the second edge goes back to the "unstep" state
    have hback : s.pulse b (!s.stepPin) s.stepPin s'.dirPin = [] := by
      refine if_neg fun h => ?_
      rw [← hlevel] at h
      exact h.1 (h.2 hunsteps)
    rw [State.pulses, hp]
    dsimp only
    rw [hback, pulse_toggle, if_pos fun _ => hlevel, if_pos (.inl hsingle)]
    rfl
  · have hpulses : s.pulses b s' = s.pulse b s.stepPin (!s.stepPin) s.dirPin := by
      rw [State.pulses]
      cases hpath : s.path b with
      | avr => exact absurd hpath hp
      | edge => rfl
      | full => rfl
    have hunsteps := unsteps_of_ne_avr hs hp
    have hiff : (s.unsteps b = true → s.stepPin = s.invertStep) ↔
        (s.singleSched = true ∨ s.count.toNat % 2 = 0) := by
      cases hsingle : s.singleSched with
      | true =>
        rw [hsingle] at hunsteps
        exact iff_of_true (fun h => nomatch hunsteps.symm.trans h) (.inl rfl)
      | false =>
        rw [hsingle] at hunsteps
        rw [← hsingle]
        exact ⟨fun h => (hpin hunsteps).mp (h hunsteps), fun h _ => (hpin hunsteps).mpr h⟩
    rw [hpulses, pulse_toggle]
    exact if_congr hiff rfl rfl

/-- The value after a timer event. -/
theorem biased_net_pulses (hs : s.Configured b) (hpin : s.Pinned b)
    (pulses : List Bool) (s' : State) :
    biased (net (pulses ++ s.pulses b s')) = biased (net pulses) + signed s.dirPin s.due := by
  rw [pulses_eq hs hpin, State.due]
  split
  · rw [net_append, net_singleton, ← biased_add]
    cases s.dirPin <;> rfl
  · rw [append_nil]
    cases s.dirPin <;> exact (add_zero _).symm

theorem Fires.parity {sched : Sched} (h : Fires b s sched s') (hsingle : s.singleSched = false) :
    s'.count.toNat % 2 = 0 ↔ ¬ s.count.toNat % 2 = 0 := by
  cases h with
  | unstep _ _ _ h | next _ _ h | finish _ _ h =>
    have hcount := h.count
    omega
  | load hone _ h =>
    have hcount := h.toNat_count
    rw [h.same.singleSched, hsingle] at hcount
    rw [hcount, hone]
    show _ * 2 % 2 = 0 ↔ _
    omega

/-- The pin keeps up with the counter. -/
theorem Fires.pinned {sched : Sched} (h : Fires b s sched s')
    (hs : s.Configured b) (hpin : s.Pinned b) (hfixed : Fixed s s')
    (hlevel : s'.stepPin = if s.path b = .avr then s.stepPin else !s.stepPin) : s'.Pinned b := by
  intro hunsteps
  rw [hfixed.unsteps] at hunsteps
  rw [hfixed.invertStep, hfixed.singleSched, hlevel]
  by_cases hp : s.path b = .avr
  · have hsingle := hs.single (by rw [hp]; exact nofun)
    rw [if_pos hp]
    exact iff_of_true ((hpin hunsteps).mpr (.inl hsingle)) (.inl hsingle)
  · have hsingle : s.singleSched = false := by
      rw [unsteps_of_ne_avr hs hp, Bool.not_eq_true'] at hunsteps
      exact hunsteps
    have hold := hpin hunsteps
    have hflip : (!s.stepPin) = s.invertStep ↔ ¬ s.stepPin = s.invertStep := by
      cases s.stepPin <;> cases s.invertStep <;> decide
    rw [if_neg hp, hflip, hold, h.parity hsingle, hsingle]
    exact ⟨fun h => .inr fun h' => h (.inr h'),
      fun h h' => (h.resolve_left nofun) (h'.resolve_left nofun)⟩

/-- An idle pin is in its "unstep" state, and the events of a move are even. -/
theorem Loads.pinned (hloads : Loads b s m mq s') (hcredits : Credits s m s')
    (hzero : s.count = 0) (hpin : s.Pinned b) : s'.Pinned b := by
  intro hunsteps
  have hlevel : s.stepPin = s.invertStep := by
    refine (hpin (hcredits.fixed.unsteps.symm.trans hunsteps)).mpr (.inr ?_)
    rw [hzero]
    rfl
  refine iff_of_true ?_ ?_
  · rw [hcredits.stepPin, hcredits.fixed.invertStep, hlevel]
  · exact hloads.due

/-! ## Runs -/

variable (b) in
/-- The counter stands for the pulses so far, and a stepper that steps is valid. -/
structure Motor.Sound (motor : Motor) : Prop where
  configured : motor.s.Configured b
  stepping : motor.s.count ≠ 0 → motor.s.Valid b
  idle : motor.s.count = 0 → motor.s.mq = [] ∧ motor.s.dirPin = motor.s.lastDir
  armed : motor.armed = decide (motor.s.count ≠ 0)
  pinned : motor.s.Pinned b
  here : motor.s.here = signed motor.s.dirPin (biased (net motor.pulses))

theorem sound_start (b : Board) (invertStep : Int8) (stepPulseTicks : UInt32) :
    (Motor.start b invertStep stepPulseTicks).Sound b := by
  obtain ⟨hconf, hzero, hmq, hdir, -, hposition, hdirPin, hstepPin, -⟩ :=
    commandConfigStepper_spec b invertStep stepPulseTicks
  refine ⟨hconf, fun h => absurd hzero h, fun _ => ⟨hmq, hdir⟩, ?_, ?_, ?_⟩
  · exact (decide_eq_false (not_not.mpr hzero)).symm
  · refine fun _ => iff_of_true hstepPin (.inr ?_)
    show (commandConfigStepper b invertStep stepPulseTicks).count.toNat % 2 = 0
    rw [hzero]
    rfl
  · show (commandConfigStepper b invertStep stepPulseTicks).here = _
    rw [here_of_zero hzero, hposition]
    show _ = signed (commandConfigStepper b invertStep stepPulseTicks).dirPin _
    rw [hdirPin]
    rfl

/-- **A STOP KEEPS THE POSITION**, wherever in a move it comes. -/
theorem sound_stop (hs : s.Configured b) {pulses : List Bool}
    (hbelow : |net pulses| < 2 ^ 30) (h : s.here = signed up (biased (net pulses))) :
    Motor.Sound b ⟨stepperStop b s, false, pulses⟩ := by
  refine ⟨{ hs with }, fun hc => absurd rfl hc, fun _ => ⟨rfl, rfl⟩, rfl, ?_, ?_⟩
  · intro hunsteps
    refine iff_of_true ?_ (.inr rfl)
    exact if_pos hunsteps
  · show (stepperStop b s).here = -biased (net pulses)
    rw [here_of_zero rfl]
    show -stepperGetPosition s = _
    rw [stepperGetPosition_of_here hbelow h]

/-- Returning the step pin to its "unstep" state is no pulse. -/
theorem pulse_stop (s : State) (dir : Bool) :
    s.pulse b s.stepPin (stepperStop b s).stepPin dir = [] := by
  refine if_neg fun h => h.1 ?_
  show s.stepPin = if s.unsteps b then s.invertStep else s.stepPin
  split
  · rename_i hunsteps
    exact h.2 hunsteps
  · rfl

theorem halt_eq (motor : Motor) (s : State) :
    motor.halt b s = ⟨stepperStop b s, false, motor.pulses⟩ := by
  show Motor.mk _ _ (motor.pulses ++ s.pulse b s.stepPin (stepperStop b s).stepPin false) = _
  rw [pulse_stop, append_nil]
  rfl

variable {motor : Motor}

/-- A stepper that is shut down where the counter has just been read right. -/
theorem sound_halt (hs : s.Configured b)
    (hbelow : |net (motor.halt b s).pulses| < 2 ^ 30)
    (h : s.here = signed up (biased (net motor.pulses))) : (motor.halt b s).Sound b := by
  rw [halt_eq] at hbelow ⊢
  exact sound_stop hs hbelow h

section Sound

variable (h : motor.Sound b)
include h

theorem sound_timer (reads : Reads) (hbelow : |net (motor.act b (.timer reads)).pulses| < 2 ^ 30) :
    (motor.act b (.timer reads)).Sound b := by
  rw [Motor.act] at hbelow ⊢
  split
  · rename_i harmed
    rw [if_pos harmed] at hbelow
    rw [h.armed, decide_eq_true_iff] at harmed
    have hvalid := h.stepping harmed
    obtain ⟨turn, hticks, hpins⟩ := event_ticks reads hvalid harmed
    have hhere : ∀ s', (outcome (motor.s.event b reads)).here
        = signed (motor.s.dirPin ^^ turn) (biased (net (motor.pulses ++ motor.s.pulses b s'))) := by
      intro s'
      rw [hticks.here, h.here, signed_add, signed_turn, biased_net_pulses h.configured h.pinned]
    cases hev : motor.s.event b reads with
    | error e =>
      rw [hev] at hbelow hticks hhere
      exact sound_halt (hticks.fixed.configured h.configured) hbelow (hhere e.2)
    | ok r =>
      obtain ⟨sched, s'⟩ := r
      have hfires := event_fires hvalid harmed hev
      obtain ⟨hdir, hpin⟩ := hpins sched s' hev
      have hvalid' := hfires.valid hvalid
      rw [hev] at hticks hhere
      refine ⟨hvalid'.toConfigured, fun _ => hvalid', fun hzero => ?_, ?_,
        hfires.pinned h.configured h.pinned hticks.fixed hpin, ?_⟩
      · have hmq := hvalid'.idle hzero
        have hlast := hvalid'.dir
        rw [hmq] at hlast
        exact ⟨hmq, hlast⟩
      · exact decide_eq_decide.mpr (hfires.reschedule_iff hvalid)
      · show s'.here = signed s'.dirPin _
        rw [hdir]
        exact hhere s'
  · exact h

variable {interval count add : UInt32}

/-- A move that comes while the stepper steps waits in the queue. -/
theorem sound_queue {added : Bool} (hc : motor.s.count ≠ 0)
    (hq : commandQueueStep b interval count add motor.s = .ok (added, s')) :
    Motor.Sound b ⟨s', motor.armed || added, motor.pulses⟩ := by
  obtain ⟨hvalid, -, hc', -, -⟩ := commandQueueStep_spec [] (h.stepping hc) hq
  rw [commandQueueStep] at hq
  dsimp only at hq
  split at hq
  · cases hq
  · cases hq
    refine ⟨hvalid.toConfigured, fun _ => hvalid, fun hzero => absurd hzero hc, ?_,
      h.pinned, h.here⟩
    show (motor.armed || false) = _
    rw [Bool.or_false, h.armed]

/-- One that comes while it is idle is credited at once. -/
theorem credits_of_idle (hzero : motor.s.count = 0) (m : Move) :
    Credits (motor.s.queue m) m (outcome (loadNext b 0 (motor.s.queue m))) :=
  loadNext_credits 0 (h.configured.queue m) (State.queue_mq (h.idle hzero).1 m)

theorem Credits.here_of_idle (hcredits : Credits (motor.s.queue m) m s')
    (hzero : motor.s.count = 0) :
    s'.here = signed (motor.s.dirPin ^^ m.dir) (biased (net motor.pulses)) := by
  rw [hcredits.here]
  show signed _ motor.s.position = _
  rw [← here_of_zero hzero, h.here, signed_turn]

theorem sound_load {r : Sched × State}
    (hzero : motor.s.count = 0) (hreset : motor.s.needReset = false) (hm : m.count ≠ 0)
    (hdir : m.dir = decide (motor.s.lastDir ≠ motor.s.nextDir))
    (hload : loadNext b 0 (motor.s.queue m) = .ok r) : Motor.Sound b ⟨r.2, true, motor.pulses⟩ := by
  obtain ⟨hmq, hlast⟩ := h.idle hzero
  have hcredits := credits_of_idle h hzero m
  rw [hload, outcome] at hcredits
  have hconf := h.configured.queue m
  have hloads := (loadNext_cons hconf (State.queue_mq hmq m) hload).2
  have hc := hloads.count_ne_zero hm
  have hvalid : r.2.Valid b := by
    refine hloads.valid hconf hreset (forall_mem_singleton.mpr hm) ?_
    show (motor.s.dirPin ^^ m.dir) = motor.s.nextDir
    rw [hlast, hdir]
    cases motor.s.lastDir <;> cases motor.s.nextDir <;> rfl
  refine ⟨hvalid.toConfigured, fun _ => hvalid, fun h => absurd h hc,
    (decide_eq_true hc).symm, hloads.pinned hcredits hzero h.pinned, ?_⟩
  · show r.2.here = signed r.2.dirPin _
    rw [hcredits.here_of_idle h hzero, hloads.dirPin]
    rfl

theorem sound_queueStep {added : Bool}
    (hq : commandQueueStep b interval count add motor.s = .ok (added, s')) :
    Motor.Sound b ⟨s', motor.armed || added, motor.pulses⟩ := by
  by_cases hzero : motor.s.count = 0
  · rw [commandQueueStep] at hq
    dsimp only at hq
    split at hq
    · cases hq
    · rename_i hm
      rw [if_neg (not_not.mpr hzero)] at hq
      split at hq
      · -- a stepper that needs a new clock ignores the move
        cases hq
        rw [Bool.or_false]
        exact h
      · rename_i hreset
        obtain ⟨r, hload, hr⟩ := Result.map_eq_ok hq
        cases hr
        rw [Bool.or_true]
        exact sound_load h hzero (Bool.eq_false_iff.mpr hreset) hm rfl hload
  · exact sound_queue h hzero hq

/-- A move that shuts the stepper down does not change what the counter stands for. -/
theorem here_of_queueStep_error {e : Shutdown × State}
    (hq : commandQueueStep b interval count add motor.s = .error e) :
    e.2.Configured b ∧ ∃ up, e.2.here = signed up (biased (net motor.pulses)) := by
  rw [commandQueueStep] at hq
  dsimp only at hq
  split at hq
  · cases hq
    exact ⟨h.configured, _, h.here⟩
  · split at hq
    · cases hq
    · rename_i hc
      have hzero := not_not.mp hc
      split at hq
      · cases hq
      · have hcredits := credits_of_idle h hzero
          ⟨interval, add.toUInt16.toInt16, count.toUInt16, motor.s.lastDir ≠ motor.s.nextDir⟩
        rw [State.queue, Result.map_eq_error hq] at hcredits
        exact ⟨hcredits.fixed.configured (h.configured.queue _), _, hcredits.here_of_idle h hzero⟩

/-- **ONE ACTION** leaves the counter standing for the pulses. -/
theorem sound_act (action : Action) (hbelow : |net (motor.act b action).pulses| < 2 ^ 30) :
    (motor.act b action).Sound b := by
  cases action with
  | queueStep interval count add late =>
    rw [Motor.act] at hbelow ⊢
    cases hq : commandQueueStep b interval count add motor.s with
    | error e =>
      rw [hq] at hbelow
      obtain ⟨hconf, up, hhere⟩ := here_of_queueStep_error h hq
      exact sound_halt hconf hbelow hhere
    | ok r =>
      obtain ⟨added, s₁⟩ := r
      rw [hq] at hbelow
      have hsound := sound_queueStep h hq
      dsimp only at hbelow ⊢
      split
      · rename_i hlate
        rw [if_pos hlate] at hbelow
        exact sound_halt hsound.configured hbelow hsound.here
      · exact hsound
  | setNextStepDir dir =>
    refine { h with configured := { h.configured with }, stepping := fun hc => ?_ }
    exact { h.stepping hc with }
  | resetStepClock clock =>
    rw [Motor.act, commandResetStepClock] at hbelow ⊢
    by_cases hzero : motor.s.count = 0
    · rw [if_neg (not_not.mpr hzero)]
      exact { h with
        configured := { h.configured with }, stepping := fun hc => absurd hzero hc }
    · rw [if_pos hzero] at hbelow ⊢
      exact sound_halt h.configured hbelow h.here
  | timer reads => exact sound_timer h reads hbelow
  | stop | shutdown => exact sound_halt h.configured hbelow h.here

end Sound

/-- **A RUN** leaves the counter standing for the pulses, if their number stays within range. -/
theorem sound_run {actions : List Action} : ∀ {motor : Motor}, motor.Sound b →
    (∀ pre, pre <+: actions → |net (motor.run b pre).pulses| < 2 ^ 30) →
    (motor.run b actions).Sound b := by
  induction actions with
  | nil => exact fun h _ => h
  | cons action actions ih =>
    intro motor h hbelow
    have hnext := hbelow [action] (prefix_append [action] actions)
    refine ih (sound_act h action hnext) fun pre hpre => ?_
    exact hbelow (action :: pre) ((prefix_cons_inj action).mpr hpre)

/-- **THE REPORTED POSITION IS EXACT**: the number of pulses with the direction pin high less
    that of the others, as long as this stays below `2 ^ 30` in magnitude. -/
theorem reported_position (b : Board) (invertStep : Int8)
    (stepPulseTicks : UInt32) {actions : List Action}
    (hbelow : ∀ pre, pre <+: actions →
      |net ((Motor.start b invertStep stepPulseTicks).run b pre).pulses| < 2 ^ 30) :
    (commandStepperGetPosition ((Motor.start b invertStep stepPulseTicks).run b actions).s).toInt
      = net ((Motor.start b invertStep stepPulseTicks).run b actions).pulses := by
  have hsound := sound_run (sound_start b invertStep stepPulseTicks) hbelow
  exact commandStepperGetPosition_of_here (hbelow actions (prefix_refl actions)) hsound.here

/-- A board without any optimization. -/
def plainBoard : Board := ⟨false, false, false, 0, 1000⟩

/-- Three steps up, of which the second is stopped before its unstep event, and
    one step down after a new clock. -/
def stoppedMidStep : List Action :=
  [.setNextStepDir 1, .queueStep 100 3 0 false, .timer ⟨100, 0⟩, .timer ⟨120, 0⟩,
    .timer ⟨200, 0⟩, .stop, .resetStepClock 500, .queueStep 100 1 0 false,
    .timer ⟨600, 0⟩]

theorem reported_position_stopped :
    net ((Motor.start plainBoard 0 20).run plainBoard stoppedMidStep).pulses = 1 ∧
    (commandStepperGetPosition ((Motor.start plainBoard 0 20).run plainBoard
      stoppedMidStep).s).toInt = 1 := by
  have hnet : net ((Motor.start plainBoard 0 20).run plainBoard
      stoppedMidStep).pulses = 1 := by decide +kernel
  have hbelow : ∀ pre ∈ stoppedMidStep.inits,
      |net ((Motor.start plainBoard 0 20).run plainBoard pre).pulses| < 2 ^ 30 := by decide +kernel
  refine ⟨hnet, ?_⟩
  rw [reported_position plainBoard 0 20 fun pre hpre =>
    hbelow pre ((mem_inits pre _).mpr hpre), hnet]

end Stepper
