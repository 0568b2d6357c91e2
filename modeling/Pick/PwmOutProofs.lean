import Pick.NumberProofs
import Pick.RunProofs
import Pick.TimerProofs

/-! # The watchdog of hardware PWM outputs

Model of `pwm_out` in `src/pwmcmds.c`: an output that is set at given times, and
that must not stay away from its default for longer than `max_duration` unless the
host says so again.

There is one timer, for the next update or for the deadline, and its function tells
which.  A move that finds the queue empty takes the timer over; the deadline it
replaces is gone, so its own time is compared with it first. -/

namespace PwmOut

open Timer Double

/-! ## Model -/

/-- The two functions of the timer. -/
inductive TimerFunc where
  | event
  | endEvent
  deriving DecidableEq, Repr

/-- `struct pwm_move`. -/
structure Move where
  waketime : UInt32
  value : UInt16
  deriving DecidableEq, Repr

/-- `struct pwm_out_s`, the value of its pin, and whether its timer is in the scheduler's list. -/
structure State where
  armed : Bool
  func : TimerFunc
  waketime : UInt32
  pin : UInt16
  maxDuration : UInt32
  defaultValue : UInt16
  mq : List Move
  deriving DecidableEq, Repr

/-- The reasons to shut down. -/
inductive Shutdown where
  | missedScheduling
  | exceedsMaxDuration
  deriving DecidableEq, Repr

/-- Their texts. -/
def Shutdown.text : Shutdown → String
  | .missedScheduling => "Missed scheduling of next hard pwm event"
  | .exceedsMaxDuration => "Scheduled pwm event will exceed max_duration"

/-- How the code can end: by a shutdown, or by taking a move from an empty queue. -/
inductive Stop where
  | shutdown (reason : Shutdown)
  | fault
  deriving DecidableEq, Repr

/-- `pwm_end_event`. -/
def pwmEndEvent (_ : State) : Except Stop State := .error (.shutdown .missedScheduling)

/-- `pwm_event`. -/
def pwmEvent (s : State) : Except Stop State :=
  match s.mq with
  | [] => .error .fault
  | m :: mq =>
    let s : State := { s with pin := m.value, mq := mq }
    match mq with
    | [] =>
      if m.value = s.defaultValue ∨ s.maxDuration = 0 then
        .ok { s with armed := false }
      else
        -- the safety timeout
        .ok { s with waketime := s.waketime + s.maxDuration, func := .endEvent }
    | n :: _ =>
      if m.value ≠ s.defaultValue ∧ s.maxDuration ≠ 0 ∧
          timerIsBefore (s.waketime + s.maxDuration) n.waketime then
        .error (.shutdown .exceedsMaxDuration)
      else .ok { s with waketime := n.waketime }

/-- `command_config_pwm_out`; memory is cleared when it is allocated. -/
def commandConfigPwmOut (value defaultValue maxDuration : UInt32) : State where
  armed := false
  func := .event
  waketime := 0
  pin := value.toUInt16
  maxDuration := maxDuration
  defaultValue := defaultValue.toUInt16
  mq := []

/-- `command_queue_pwm_out`. -/
def commandQueuePwmOut (clock value : UInt32) (s : State) : Except Stop State :=
  let m : Move := ⟨clock, value.toUInt16⟩
  if s.mq ≠ [] then .ok { s with mq := s.mq ++ [m] }
  else if s.func = .endEvent ∧ timerIsBefore s.waketime m.waketime then
    .error (.shutdown .exceedsMaxDuration)
  else .ok { s with mq := [m], func := .event, waketime := m.waketime, armed := true }

/-- `pwm_shutdown`; the scheduler has emptied its list of timers by itself. -/
def pwmShutdown (s : State) : State :=
  { s with pin := s.defaultValue, func := .event, mq := [], armed := false }

/-! ## Runs -/

/-- An output, and the time of the update it has applied last. -/
structure Sys where
  s : State
  last : UInt32
  deriving DecidableEq, Repr

/-- A command, the event of the timer, or a shutdown from which the host has recovered. -/
inductive Op where
  | queue (clock value : UInt32)
  | timer
  | shutdown
  deriving Repr

/-- One operation. -/
def Sys.step (g : Sys) : Op → Except Stop Sys
  | .queue clock value => (commandQueuePwmOut clock value g.s).map fun s => ⟨s, g.last⟩
  | .timer =>
    if ¬ g.s.armed then .ok g
    else match g.s.func with
      | .endEvent => (pwmEndEvent g.s).map fun s => ⟨s, g.last⟩
      | .event => (pwmEvent g.s).map fun s => ⟨s, g.s.waketime⟩
  | .shutdown => .ok ⟨pwmShutdown g.s, g.last⟩

/-- A run of operations. -/
def Sys.run (g : Sys) (ops : List Op) : Except Stop Sys := ops.foldlM Sys.step g

/-- An output that has been configured. -/
def Sys.start (value defaultValue maxDuration : UInt32) : Sys :=
  ⟨commandConfigPwmOut value defaultValue maxDuration, 0⟩

/-! ## What is to be shown -/

/-- The next timer event applies the first move of the queue, or shuts down. -/
def Sys.Acts (g : Sys) : Prop :=
  (∃ m mq s, g.s.mq = m :: mq ∧ g.step .timer = .ok ⟨s, g.s.waketime⟩ ∧
    s.pin = m.value ∧ s.mq = mq) ∨
  ∃ reason, g.step .timer = .error (.shutdown reason)

/-- The timer runs no later than `limit` after the last update, and then acts. -/
structure Sys.Guarded (limit : UInt32) (g : Sys) : Prop where
  armed : g.s.armed = true
  due : elapsed g.last g.s.waketime ≤ limit.toNat
  acts : g.Acts

/-! ## The invariant -/

/-- What holds between operations. -/
structure Inv (limit : UInt32) (g : Sys) : Prop where
  maxDuration : g.s.maxDuration = limit
  queued : ∀ m ∈ g.s.mq.head?, g.s.armed = true ∧ g.s.func = .event
  idle : g.s.mq = [] → g.s.func = .event → g.s.armed = false
  deadline : g.s.func = .endEvent → g.s.mq = [] ∧ g.s.armed = true ∧ g.s.waketime = g.last + limit
  away : g.s.pin ≠ g.s.defaultValue → g.s.armed = true ∧ elapsed g.last g.s.waketime ≤ limit.toNat

variable {s s' : State} {g g' : Sys} {limit : UInt32} {op : Op} {ops : List Op}

/-- **ALL THAT `pwm_event` CAN DO** with the first move of the queue. -/
inductive Applies (s : State) (m : Move) : List Move → Except Stop State → Prop where
  | done : m.value = s.defaultValue ∨ s.maxDuration = 0 →
      Applies s m [] (.ok { s with pin := m.value, mq := [], armed := false })
  | guard : Applies s m [] (.ok { s with
      pin := m.value, mq := [], waketime := s.waketime + s.maxDuration, func := .endEvent })
  | late {n : Move} {mq : List Move} :
      Applies s m (n :: mq) (.error (.shutdown .exceedsMaxDuration))
  | next {n : Move} {mq : List Move} :
      (m.value ≠ s.defaultValue → s.maxDuration ≠ 0 →
        timerIsBefore (s.waketime + s.maxDuration) n.waketime = false) →
      Applies s m (n :: mq) (.ok { s with
        pin := m.value, mq := n :: mq, waketime := n.waketime })

theorem applies {m : Move} {mq : List Move} (hmq : s.mq = m :: mq) :
    Applies s m mq (pwmEvent s) := by
  rw [pwmEvent, hmq]
  dsimp only
  split
  · split
    · rename_i hdone
      exact .done hdone
    · exact .guard
  · split
    · exact .late
    · rename_i hlate
      refine .next fun hpin hmax => ?_
      exact Bool.eq_false_iff.mpr fun hbefore => hlate ⟨hpin, hmax, hbefore⟩

/-- **AN ARMED TIMER ACTS**: it never finds the queue empty. -/
theorem Inv.acts (h : Inv limit g) (harmed : g.s.armed = true) : g.Acts := by
  have hstep : g.step .timer = match g.s.func with
      | .endEvent => (pwmEndEvent g.s).map fun s => ⟨s, g.last⟩
      | .event => (pwmEvent g.s).map fun s => ⟨s, g.s.waketime⟩ :=
    if_neg (not_not.mpr harmed)
  rw [Sys.Acts, hstep]
  cases hfunc : g.s.func with
  | endEvent => exact .inr ⟨_, rfl⟩
  | event =>
    dsimp only
    cases hmq : g.s.mq with
    | nil => exact nomatch harmed.symm.trans (h.idle hmq hfunc)
    | cons m mq =>
      have happlies := applies hmq
      generalize pwmEvent g.s = r at happlies ⊢
      cases happlies with
      | done _ | guard | next _ => exact .inl ⟨m, _, _, rfl, rfl, rfl, rfl⟩
      | late => exact .inr ⟨_, rfl⟩

section Steps

variable (hlimit : limit.toNat < 2 ^ 31) (hpos : limit ≠ 0) (h : Inv limit g)
include hlimit h

/-- **A MOVE** keeps the deadline, or takes the timer over for a time before it. -/
theorem Inv.queue {clock value : UInt32}
    (hq : commandQueuePwmOut clock value g.s = .ok s') : Inv limit ⟨s', g.last⟩ := by
  rw [commandQueuePwmOut] at hq
  dsimp only at hq
  split at hq
  · rename_i hmq
    cases hq
    obtain ⟨m, mq, hcons⟩ := List.exists_cons_of_ne_nil hmq
    have hfirst := h.queued m (by rw [hcons]; exact rfl)
    refine ⟨h.maxDuration, fun _ _ => hfirst, fun hnil => ?_, fun hend => ?_, h.away⟩
    · exact absurd hnil (List.append_ne_nil_of_left_ne_nil hmq _)
    · exact nomatch hfirst.2.symm.trans hend
  · rename_i hmq
    have hempty : g.s.mq = [] := not_not.mp hmq
    split at hq
    · cases hq
    · rename_i hlate
      cases hq
      refine ⟨h.maxDuration, fun _ _ => ⟨rfl, rfl⟩, nofun, nofun, fun haway => ⟨rfl, ?_⟩⟩
      obtain ⟨harmed, -⟩ := h.away haway
      -- away from the default with an empty queue: the timer is at the deadline
      have hfunc : g.s.func = .endEvent := by
        cases hf : g.s.func with
        | endEvent => rfl
        | event => exact nomatch harmed.symm.trans (h.idle hempty hf)
      have hearly : timerIsBefore (g.last + limit) clock = false := by
        rw [← (h.deadline hfunc).2.2]
        exact Bool.eq_false_iff.mpr fun hbefore => hlate ⟨hfunc, hbefore⟩
      exact (elapsed_of_not_before hlimit hearly).1

include hpos

/-- **AN UPDATE** that is not the default starts the deadline anew. -/
theorem Inv.event (hfunc : g.s.func = .event) (harmed : g.s.armed = true)
    (hev : pwmEvent g.s = .ok s') :
    Inv limit ⟨s', g.s.waketime⟩ := by
  cases hmq : g.s.mq with
  | nil =>
    rw [pwmEvent, hmq] at hev
    cases hev
  | cons m mq =>
    have happlies := applies hmq
    rw [hev] at happlies
    cases happlies with
    | done hdone =>
      rw [h.maxDuration] at hdone
      refine ⟨h.maxDuration, nofun, fun _ _ => rfl, fun hend => ?_, fun haway => ?_⟩
      · exact nomatch hfunc.symm.trans hend
      · exact absurd (hdone.resolve_right hpos) haway
    | guard =>
      refine ⟨h.maxDuration, nofun, nofun, fun _ => ⟨rfl, harmed, ?_⟩, fun _ => ⟨harmed, ?_⟩⟩
      · exact congrArg (g.s.waketime + ·) h.maxDuration
      · show elapsed g.s.waketime (g.s.waketime + g.s.maxDuration) ≤ _
        rw [h.maxDuration, elapsed_self_add hlimit]
    | next hearly =>
      rw [h.maxDuration] at hearly
      refine ⟨h.maxDuration, fun _ _ => ⟨harmed, hfunc⟩, nofun, fun hend => ?_,
        fun haway => ⟨harmed, ?_⟩⟩
      · exact nomatch hfunc.symm.trans hend
      · exact (elapsed_of_not_before hlimit (hearly haway hpos)).1

/-- **ONE STEP** keeps the invariant. -/
theorem Inv.step (hstep : g.step op = .ok g') : Inv limit g' := by
  cases op with
  | queue clock value =>
    obtain ⟨s', hq, rfl⟩ := Result.map_eq_ok hstep
    exact h.queue hlimit hq
  | timer =>
    rw [Sys.step] at hstep
    split at hstep
    · cases hstep
      exact h
    · rename_i harmed
      split at hstep
      · cases hstep
      · rename_i hfunc
        obtain ⟨s', hev, rfl⟩ := Result.map_eq_ok hstep
        exact h.event hlimit hpos hfunc (not_not.mp harmed) hev
  | shutdown =>
    cases hstep
    exact ⟨h.maxDuration, nofun, fun _ _ => rfl, nofun, fun haway => absurd rfl haway⟩

theorem Inv.run (hrun : g.run ops = .ok g') : Inv limit g' :=
  Result.foldlM_invariant (fun _ _ _ h₁ hstep => h₁.step hlimit hpos hstep) h hrun

end Steps

/-- An output that starts at its default. -/
theorem inv_start {value defaultValue : UInt32} (hvalue : value.toUInt16 = defaultValue.toUInt16) :
    Inv limit (Sys.start value defaultValue limit) :=
  ⟨rfl, nofun, fun _ _ => rfl, nofun, fun haway => absurd hvalue haway⟩

/-- **THE WATCHDOG OF A HARDWARE PWM OUTPUT**: an output away from its default is guarded by its
    timer. -/
theorem output_guarded {value defaultValue : UInt32} (hpos : 0 < limit.toNat)
    (hlimit : limit.toNat < 2 ^ 31) (hvalue : value.toUInt16 = defaultValue.toUInt16)
    (hrun : (Sys.start value defaultValue limit).run ops = .ok g)
    (haway : g.s.pin ≠ g.s.defaultValue) : g.Guarded limit := by
  have hne : limit ≠ 0 := by
    rintro rfl
    exact absurd hpos (lt_irrefl 0)
  have hinv := (inv_start hvalue).run hlimit hne hrun
  obtain ⟨harmed, hdue⟩ := hinv.away haway
  exact ⟨harmed, hdue, hinv.acts harmed⟩

/-- Half power at 5000, when the timer waits for the deadline, which a next update then replaces. -/
theorem output_guarded_half :
    ∃ g g' : Sys, (Sys.start 0 0 1000).run [.queue 5000 128, .timer] = .ok g ∧
      g.s.func = .endEvent ∧ g.Guarded 1000 ∧
      (Sys.start 0 0 1000).run [.queue 5000 128, .timer, .queue 5800 64] = .ok g' ∧
      g'.s.func = .event ∧ g'.Guarded 1000 := by
  refine ⟨_, _, rfl, rfl, ?_, rfl, rfl, ?_⟩
  · exact output_guarded (by decide) (by decide) rfl
      (show (Sys.start 0 0 1000).run [.queue 5000 128, .timer] = .ok _ from rfl) (by decide)
  · exact output_guarded (by decide) (by decide) rfl
      (show (Sys.start 0 0 1000).run [.queue 5000 128, .timer, .queue 5800 64] = .ok _
        from rfl) (by decide)

/-! ## The host's values (`MCU_pwm` in `klippy/mcu.py`)

`config_pwm_out` is sent the default cut off to an integer, `queue_pwm_out` a value
that is rounded.  Every operation is one on doubles. -/

section Host

variable {K : Type} [Field K] [LinearOrder K] [IsStrictOrderedRing K] [FloorRing K]
  (invert : Bool) (value : K) (pwmMax : ℕ)

/-- A value as `setup_start_value` and `set_pwm` clamp it. -/
def clamped : K := max 0 (min 1 (if invert then rounded (1 - value) else value))

/-- The product both paths compute, with the `PWM_MAX` of `get_constant_float`. -/
def scaled : K := rounded (clamped invert value * rounded (pwmMax : K))

/-- The `default_value` of `config_pwm_out`: `%d` cuts it off. -/
def configDefault : ℤ := ⌊scaled invert value pwmMax⌋

/-- The value that `set_pwm` sends. -/
def setPwm : ℤ := ⌊rounded (scaled invert value pwmMax + 1 / 2)⌋

/-- An update with the value is one to the default: `pwm_event` arms no timeout. -/
def Disarms (value defaultValue : ℤ) : Prop :=
  ∀ (s : State) (clock : UInt32), s.defaultValue = (UInt32.ofInt defaultValue).toUInt16 →
    s.mq = [⟨clock, (UInt32.ofInt value).toUInt16⟩] →
    ∃ s', pwmEvent s = .ok s' ∧ s'.armed = false

theorem disarms_self (value : ℤ) : Disarms value value := by
  intro s clock hdefault hmq
  refine ⟨{ s with pin := s.defaultValue, mq := [], armed := false }, ?_, rfl⟩
  simp [pwmEvent, hmq, hdefault]

theorem scaled_nonneg : 0 ≤ scaled invert value pwmMax := by
  have hmax : 0 ≤ rounded (pwmMax : K) := isDouble_zero.le_rounded (Nat.cast_nonneg _)
  exact isDouble_zero.le_rounded (mul_nonneg (le_max_left 0 _) hmax)

/-- **THE SHUTDOWN VALUE TURNS THE WATCHDOG OFF** exactly if rounding its product with
    `PWM_MAX` cuts it off. -/
theorem setPwm_disarms_iff :
    (setPwm invert value pwmMax = configDefault invert value pwmMax ∧
      Disarms (setPwm invert value pwmMax) (configDefault invert value pwmMax)) ↔
    RoundsDown (scaled invert value pwmMax) := by
  have hsame : setPwm invert value pwmMax = configDefault invert value pwmMax ↔
      RoundsDown (scaled invert value pwmMax) :=
    floor_rounded_add_half_eq_iff (isDouble_rounded _) (scaled_nonneg invert value pwmMax)
  constructor
  · rintro ⟨heq, -⟩
    exact hsame.mp heq
  · intro hdown
    rw [hsame.mpr hdown]
    exact ⟨rfl, disarms_self _⟩

end Host

/-- A fifth of the power, on an inverted pin: 204 on both paths. -/
theorem setPwm_disarms_iff_fifth :
    configDefault true (rounded (1 / 5 : ℚ)) 255 = 204 ∧
      setPwm true (rounded (1 / 5 : ℚ)) 255 = configDefault true (rounded (1 / 5 : ℚ)) 255 ∧
      Disarms (setPwm true (rounded (1 / 5 : ℚ)) 255)
        (configDefault true (rounded (1 / 5 : ℚ)) 255) :=
  ⟨by decide +kernel, (setPwm_disarms_iff true (rounded (1 / 5 : ℚ)) 255).mpr
    ⟨by decide +kernel, by decide +kernel, by decide +kernel⟩⟩

/-- **HALF POWER KEEPS THE WATCHDOG ON**: 127.5 is cut off to 127 and rounded to 128. -/
theorem half_power_rearms :
    setPwm false (1 / 2 : ℚ) 255 = 128 ∧ configDefault false (1 / 2 : ℚ) 255 = 127 ∧
      ¬ Disarms 128 127 := by
  refine ⟨by decide +kernel, by decide +kernel, fun h => ?_⟩
  obtain ⟨s', hevent, harmed⟩ := h ⟨true, .event, 5000, 0, 1000, 127, [⟨5000, 128⟩]⟩ 5000 rfl rfl
  cases hevent
  cases harmed

-- the double 0.3 is below 3/10, and so is its product with 255 below 76.5, but the
-- double nearest to that product is 76.5
example : setPwm false (rounded (3 / 10 : ℚ)) 255 = 77 ∧
    configDefault false (rounded (3 / 10 : ℚ)) 255 = 76 := by decide +kernel

end PwmOut
