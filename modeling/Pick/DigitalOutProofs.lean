import Pick.RunProofs
import Pick.TimerProofs

/-! # The watchdog of digital outputs

Model of `digital_out` in `src/gpiocmds.c`: a pin that is set at given times,
or toggled by a soft PWM, and that must not stay away from its default for
longer than `max_duration` unless the host says so again.

The deadline is kept in `end_time`.  It is moved by queued moves, by updates
and by the toggle event, which hands the timer over to the load event. -/

namespace DigitalOut

open Timer

/-! ## Model -/

/-- The two functions of the timer. -/
inductive TimerFunc where
  | toggle
  | load
  deriving DecidableEq

/-- `struct digital_move`. -/
structure Move where
  waketime : UInt32
  onDuration : UInt32
  deriving DecidableEq

/-- The `DF_` flags. -/
structure Flags where
  on : Bool
  toggling : Bool
  checkEnd : Bool
  defaultOn : Bool
  deriving DecidableEq

/-- `struct digital_out_s`, the level of its pin, and whether its timer is in the
    scheduler's list. -/
structure State where
  armed : Bool
  func : TimerFunc
  waketime : UInt32
  onDuration : UInt32
  offDuration : UInt32
  endTime : UInt32
  pin : Bool
  maxDuration : UInt32
  cycleTime : UInt32
  mq : List Move
  flags : Flags
  deriving DecidableEq

/-- The reasons to shut down. -/
inductive Shutdown where
  | missedScheduling
  | exceedsMaxDuration
  | cycleWhilePending
  | updateWithQueue
  deriving DecidableEq

/-- Their texts. -/
def Shutdown.text : Shutdown → String
  | .missedScheduling => "Missed scheduling of next digital out event"
  | .exceedsMaxDuration => "Scheduled digital out event will exceed max_duration"
  | .cycleWhilePending => "Can not set soft pwm cycle ticks while updates pending"
  | .updateWithQueue => "update_digital_out not valid with active queue"

/-- `digital_toggle_event`. -/
def digitalToggleEvent (s : State) : State :=
  let on := !s.flags.on
  let s := { s with pin := !s.pin, flags := { s.flags with on := on } }
  let waketime := s.waketime + (if on then s.onDuration else s.offDuration)
  if s.flags.checkEnd ∧ ¬ timerIsBefore waketime s.endTime then
    { s with func := .load, waketime := s.endTime }
  else { s with waketime := waketime }

/-- `end_time` and `DF_CHECK_END` for a move loaded at `waketime`. -/
def loadEnd (s : State) (m : Move) : UInt32 × Bool :=
  if (m.onDuration = 0 ∨ m.onDuration ≥ s.cycleTime) ∧
      decide (m.onDuration ≠ 0) = s.flags.defaultOn ∨ s.maxDuration = 0 then
    (0, false)
  else (s.waketime + s.maxDuration, true)

/-- They are those of the next move, when there is one. -/
def nextEnd (mq : List Move) (e : UInt32 × Bool) : Except Shutdown (UInt32 × Bool) :=
  match mq with
  | [] => .ok e
  | n :: _ =>
    if e.2 ∧ timerIsBefore e.1 n.waketime then .error .exceedsMaxDuration
    else .ok (n.waketime, true)

/-- The part of `digital_load_event` that schedules the next event. -/
def scheduleNext (s : State) (onDuration : UInt32) : State :=
  if ¬ s.flags.toggling then
    if ¬ s.flags.checkEnd then { s with armed := false }
    else { s with waketime := s.endTime }
  else
    let waketime := s.waketime + onDuration
    if s.flags.checkEnd ∧ ¬ timerIsBefore waketime s.endTime then
      { s with waketime := s.endTime }
    else
      { s with
        func := .toggle
        waketime := waketime
        onDuration := onDuration
        offDuration := s.cycleTime - onDuration }

/-- `digital_load_event`. -/
def digitalLoadEvent (s : State) : Except Shutdown State :=
  match s.mq with
  | [] => .error .missedScheduling
  | m :: mq =>
    let on := decide (m.onDuration ≠ 0)
    let steady := m.onDuration = 0 ∨ m.onDuration ≥ s.cycleTime
    (nextEnd mq (loadEnd s m)).map fun e =>
      scheduleNext { s with
        pin := on
        mq := mq
        endTime := e.1
        flags := ⟨on, decide (¬ steady), e.2, s.flags.defaultOn⟩ } m.onDuration

/-- `command_config_digital_out`; memory is cleared when it is allocated. -/
def commandConfigDigitalOut (value defaultValue maxDuration : UInt32) : State where
  armed := false
  func := .load
  waketime := 0
  onDuration := 0
  offDuration := 0
  endTime := 0
  pin := decide (value ≠ 0)
  maxDuration := maxDuration
  cycleTime := 0
  mq := []
  flags := ⟨decide (value ≠ 0), false, false, decide (defaultValue ≠ 0)⟩

/-- `command_set_digital_out_pwm_cycle`. -/
def commandSetDigitalOutPwmCycle (cycleTicks : UInt32) (s : State) : Except Shutdown State :=
  if s.mq ≠ [] then .error .cycleWhilePending
  else .ok { s with cycleTime := cycleTicks }

/-- `command_queue_digital_out`. -/
def commandQueueDigitalOut (time onTicks : UInt32) (s : State) : Except Shutdown State :=
  if s.mq ≠ [] then .ok { s with mq := s.mq ++ [⟨time, onTicks⟩] }
  else if s.flags.checkEnd ∧ timerIsBefore s.endTime time then
    .error .exceedsMaxDuration
  else
    let s' := { s with
      mq := [⟨time, onTicks⟩]
      endTime := time
      flags := { s.flags with checkEnd := true } }
    if s.flags.toggling ∧ timerIsBefore s.waketime time then .ok s'
    else .ok { s' with armed := true, waketime := time, func := .load }

/-- `command_update_digital_out`; `now` is what the timer reads. -/
def commandUpdateDigitalOut (value now : UInt32) (s : State) : Except Shutdown State :=
  if s.mq ≠ [] then .error .updateWithQueue
  else
    let on := decide (value.toUInt8 ≠ 0)
    if on ≠ s.flags.defaultOn ∧ s.maxDuration ≠ 0 then
      .ok { s with
        armed := true
        func := .load
        waketime := now + s.maxDuration
        endTime := now + s.maxDuration
        pin := on
        flags := ⟨on, false, true, s.flags.defaultOn⟩ }
    else
      .ok { s with
        armed := false
        pin := on
        flags := ⟨on, false, false, s.flags.defaultOn⟩ }

/-- `digital_out_shutdown`. -/
def digitalOutShutdown (s : State) : State :=
  { s with
    pin := s.flags.defaultOn
    mq := []
    flags := ⟨s.flags.defaultOn, false, false, s.flags.defaultOn⟩ }

/-! ## Runs -/

/-- A digital output, and the time of its last load or update. -/
structure Sys where
  s : State
  last : UInt32
  deriving DecidableEq

/-- What is done with an output. -/
inductive Op where
  | queue (time onTicks : UInt32)
  | update (value now : UInt32)
  | setCycle (cycleTicks : UInt32)
  | timer

/-- One command, or the event of the timer if it is in the scheduler's list. -/
def Sys.step (g : Sys) : Op → Except Shutdown Sys
  | .queue time onTicks => (commandQueueDigitalOut time onTicks g.s).map fun s => ⟨s, g.last⟩
  | .update value now => (commandUpdateDigitalOut value now g.s).map fun s => ⟨s, now⟩
  | .setCycle cycleTicks => (commandSetDigitalOutPwmCycle cycleTicks g.s).map fun s => ⟨s, g.last⟩
  | .timer =>
    if ¬ g.s.armed then .ok g
    else match g.s.func with
      | .toggle => .ok ⟨digitalToggleEvent g.s, g.last⟩
      | .load => (digitalLoadEvent g.s).map fun s => ⟨s, g.s.waketime⟩

/-- A run of operations. -/
def Sys.run (g : Sys) (ops : List Op) : Except Shutdown Sys := ops.foldlM Sys.step g

/-! ## What is to be shown -/

/-- The pin is away from its default, or toggling. -/
def Active (s : State) : Prop := s.pin ≠ s.flags.defaultOn ∨ s.flags.toggling = true

/-- **A LOAD EVENT HAPPENS** by `limit` ticks after `last`: the timer is armed
    for it, or for a toggle event after which, at a later time, this is so. -/
inductive LoadsBy (last : UInt32) (limit : Int) : State → Prop where
  | load {s : State} : s.armed = true → s.func = .load →
      elapsed last s.waketime ≤ limit → LoadsBy last limit s
  | toggle {s : State} : s.armed = true → s.func = .toggle →
      elapsed last s.waketime < elapsed last (digitalToggleEvent s).waketime →
      LoadsBy last limit (digitalToggleEvent s) → LoadsBy last limit s

/-- The move `n` behind a soft PWM `m` is not so far back that its time looks
    later than the first toggle. -/
def Apart (cycleTime : UInt32) (m n : Move) : Prop :=
  0 < m.onDuration.toNat → m.onDuration < cycleTime →
    (m.onDuration.toNat : Int) - elapsed m.waketime n.waketime < 2 ^ 31

/-- What the host sees to. -/
def Op.Fits (s : State) : Op → Prop
  | .queue time onTicks => ∀ m ∈ s.mq.getLast?, Apart s.cycleTime m ⟨time, onTicks⟩
  | .setCycle cycleTicks => cycleTicks.toNat < 2 ^ 31
  | _ => True

/-- Each operation fits when it is made. -/
def Sys.AllFit : Sys → List Op → Prop
  | _, [] => True
  | g, op :: ops => op.Fits g.s ∧ ∀ g', g.step op = .ok g' → g'.AllFit ops

/-! ## The invariant -/

variable {s s' : State} {g g' : Sys} {last limit : UInt32} {op : Op}
  {ops : List Op}

/-- The deadline of an output that is away from its default. -/
structure Watched (limit last : UInt32) (s : State) : Prop where
  armed : s.armed = true
  checkEnd : s.flags.checkEnd = true
  alone : s.mq = [] → s.endTime = last + limit
  le : elapsed last s.endTime ≤ limit.toNat
  gt : (limit.toNat : Int) - 2 ^ 31 < elapsed last s.endTime
  toggle : s.func = .toggle → 0 < elapsed last s.waketime ∧
    elapsed last s.waketime < elapsed last s.endTime ∧
    (0 < s.onDuration.toNat ∧ s.onDuration.toNat < 2 ^ 31) ∧
    (0 < s.offDuration.toNat ∧ s.offDuration.toNat < 2 ^ 31)

/-- What holds between operations. -/
structure Inv (limit : UInt32) (g : Sys) : Prop where
  maxDuration : g.s.maxDuration = limit
  cycle : g.s.cycleTime.toNat < 2 ^ 31
  due : g.s.armed = true → g.s.func = .load → g.s.waketime = g.s.endTime
  toggling : g.s.armed = true → g.s.func = .toggle → g.s.flags.toggling = true
  queue : ∀ m ∈ g.s.mq.head?, g.s.endTime = m.waketime
  apart : g.s.mq.IsChain (Apart g.s.cycleTime)
  watched : Active g.s → Watched limit g.last g.s

/-- What a toggle event does not change. -/
structure SameSettings (s s' : State) : Prop where
  armed : s'.armed = s.armed
  endTime : s'.endTime = s.endTime
  maxDuration : s'.maxDuration = s.maxDuration
  cycleTime : s'.cycleTime = s.cycleTime
  mq : s'.mq = s.mq
  toggling : s'.flags.toggling = s.flags.toggling

theorem digitalToggleEvent_frame (s : State) : SameSettings s (digitalToggleEvent s) := by
  rw [digitalToggleEvent]
  dsimp only
  generalize s.waketime + (if (!s.flags.on) = true then s.onDuration
    else s.offDuration) = waketime
  split
  · exact ⟨rfl, rfl, rfl, rfl, rfl, rfl⟩
  · exact ⟨rfl, rfl, rfl, rfl, rfl, rfl⟩

/-- A toggle event goes on to a later time before the deadline, or hands over to
    the load event at the deadline. -/
theorem Watched.toggleEvent (hlimit : limit.toNat < 2 ^ 31)
    (h : Watched limit last s) (hfunc : s.func = .toggle) :
    Watched limit last (digitalToggleEvent s) ∧
      elapsed last s.waketime < elapsed last (digitalToggleEvent s).waketime ∧
      ((digitalToggleEvent s).func = .load → (digitalToggleEvent s).waketime = s.endTime) := by
  obtain ⟨hpos, hlt, hon, hoff⟩ := h.toggle hfunc
  have hle := h.le
  obtain ⟨d, hd, hdpos, hdlt⟩ : ∃ d : UInt32,
      d = (if (!s.flags.on) = true then s.onDuration else s.offDuration) ∧
      0 < d.toNat ∧ d.toNat < 2 ^ 31 := by
    refine ⟨_, rfl, ?_⟩
    split
    · exact hon
    · exact hoff
  have hbefore := @timerIsBefore_add_iff last s.waketime s.endTime d (by omega) (by omega)
  rw [digitalToggleEvent]
  dsimp only
  rw [← hd]
  cases hb : timerIsBefore (s.waketime + d) s.endTime with
  | true =>
    have hsum := hbefore.mp hb
    have hadd : elapsed last (s.waketime + d) = elapsed last s.waketime + d.toNat :=
      elapsed_add (by omega)
    rw [if_neg (by rintro ⟨-, hn⟩; exact hn rfl)]
    refine ⟨{ h with toggle := fun _ => ?_ }, ?_, ?_⟩
    · show 0 < elapsed last (s.waketime + d) ∧
        elapsed last (s.waketime + d) < elapsed last s.endTime ∧ _
      rw [hadd]
      exact ⟨by omega, hsum, hon, hoff⟩
    · show _ < elapsed last (s.waketime + d)
      omega
    · intro hload
      cases hfunc.symm.trans hload
  | false =>
    rw [if_pos ⟨h.checkEnd, nofun⟩]
    exact ⟨{ h with toggle := nofun }, hlt, fun _ => rfl⟩

/-- **THE DEADLINE IS KEPT**: toggle events lead to a load event in time. -/
theorem Watched.loadsBy (hlimit : limit.toNat < 2 ^ 31) (h : Watched limit last s)
    (hdue : s.func = .load → s.waketime = s.endTime) : LoadsBy last limit.toNat s := by
  -- by induction on the time from the next event to the deadline
  obtain ⟨n, hn⟩ : ∃ n : Nat, elapsed last s.endTime - elapsed last s.waketime ≤ n :=
    ⟨_, Int.self_le_toNat _⟩
  induction n using Nat.strongRecOn generalizing s with
  | ind n ih =>
    cases hfunc : s.func with
    | load =>
      refine .load h.armed hfunc ?_
      rw [hdue hfunc]
      exact h.le
    | toggle =>
      have hlt := (h.toggle hfunc).2.1
      obtain ⟨hw, hlater, hload⟩ := h.toggleEvent hlimit hfunc
      have hend := (digitalToggleEvent_frame s).endTime
      refine .toggle h.armed hfunc hlater (ih (n - 1) (by omega) hw ?_ ?_)
      · rw [hend]
        exact hload
      · rw [hend]
        omega

variable {m : Move} {mq : List Move} {e : UInt32 × Bool}

/-- The state a load leaves, before the next event is scheduled. -/
def State.loaded (s : State) (m : Move) (mq : List Move) (e : UInt32 × Bool) : State :=
  { s with
    pin := decide (m.onDuration ≠ 0)
    mq := mq
    endTime := e.1
    flags := ⟨decide (m.onDuration ≠ 0),
      decide (¬ (m.onDuration = 0 ∨ m.onDuration ≥ s.cycleTime)), e.2,
      s.flags.defaultOn⟩ }

theorem digitalLoadEvent_ok (hload : digitalLoadEvent s = .ok s') :
    ∃ m mq e, s.mq = m :: mq ∧ nextEnd mq (loadEnd s m) = .ok e ∧
      s' = scheduleNext (s.loaded m mq e) m.onDuration := by
  rw [digitalLoadEvent] at hload
  split at hload
  · cases hload
  · rename_i m mq hmq
    obtain ⟨e, hnext, hs'⟩ := Result.map_eq_ok hload
    exact ⟨m, mq, e, hmq, hnext, hs'.symm⟩

/-- Only a steady pin at its default has no deadline. -/
theorem loadEnd_of_active (hne : s.maxDuration ≠ 0) (hactive : Active (s.loaded m mq e)) :
    loadEnd s m = (s.waketime + s.maxDuration, true) := by
  rw [loadEnd, if_neg]
  rintro (⟨hsteady, hdefault⟩ | hzero)
  · rcases hactive with hpin | htoggling
    · exact hpin hdefault
    · exact of_decide_eq_true htoggling hsteady
  · exact hne hzero

/-- A next move that is accepted is not behind the deadline. -/
theorem nextEnd_ok {t : UInt32 × Bool} (h : nextEnd mq t = .ok e) :
    (mq = [] → e = t) ∧ ∀ n ∈ mq.head?, e = (n.waketime, true) ∧
      ¬ (t.2 = true ∧ timerIsBefore t.1 n.waketime = true) := by
  cases mq with
  | nil =>
    cases h
    exact ⟨fun _ => rfl, nofun⟩
  | cons n mq =>
    rw [nextEnd] at h
    split at h
    · cases h
    · rename_i hnot
      cases h
      refine ⟨nofun, ?_⟩
      rintro n' hn
      cases hn
      exact ⟨rfl, hnot⟩

/-- The next event: none, a load at the deadline, or the first toggle. -/
theorem scheduleNext_cases (s : State) (onDuration : UInt32) :
    (scheduleNext s onDuration = { s with armed := false } ∧
        s.flags.toggling = false ∧ s.flags.checkEnd = false) ∨
      scheduleNext s onDuration = { s with waketime := s.endTime } ∨
      (scheduleNext s onDuration = { s with
          func := .toggle
          waketime := s.waketime + onDuration
          onDuration := onDuration
          offDuration := s.cycleTime - onDuration } ∧
        s.flags.toggling = true ∧
        (s.flags.checkEnd = true → timerIsBefore (s.waketime + onDuration) s.endTime = true)) := by
  rw [scheduleNext]
  dsimp only
  split
  · rename_i htoggling
    split
    · rename_i hcheck
      exact .inl ⟨rfl, Bool.eq_false_iff.mpr htoggling, Bool.eq_false_iff.mpr hcheck⟩
    · exact .inr (.inl rfl)
  · rename_i htoggling
    split
    · exact .inr (.inl rfl)
    · rename_i hnot
      refine .inr (.inr ⟨rfl, not_not.mp htoggling, fun hcheck => ?_⟩)
      by_contra hb
      exact hnot ⟨hcheck, hb⟩

/-! ## Every step keeps the invariant -/

section Steps

variable (hpos : 0 < limit.toNat) (hlimit : limit.toNat < 2 ^ 31) (h : Inv limit g)
include h

include hlimit in
theorem Inv.toggleEvent (harmed : g.s.armed = true) (hfunc : g.s.func = .toggle) :
    Inv limit ⟨digitalToggleEvent g.s, g.last⟩ := by
  have hsame := digitalToggleEvent_frame g.s
  have htoggling := h.toggling harmed hfunc
  obtain ⟨hw, -, hload⟩ := (h.watched (.inr htoggling)).toggleEvent hlimit hfunc
  refine ⟨hsame.maxDuration.trans h.maxDuration, ?_, ?_, ?_, ?_, ?_, fun _ => hw⟩
  · show (digitalToggleEvent g.s).cycleTime.toNat < _
    rw [hsame.cycleTime]
    exact h.cycle
  · intro _ hf
    exact (hload hf).trans hsame.endTime.symm
  · intro _ _
    exact hsame.toggling.trans htoggling
  · show ∀ m ∈ (digitalToggleEvent g.s).mq.head?, _
    rw [hsame.mq]
    intro m hm
    exact hsame.endTime.trans (h.queue m hm)
  · show (digitalToggleEvent g.s).mq.IsChain (Apart (digitalToggleEvent g.s).cycleTime)
    rw [hsame.mq, hsame.cycleTime]
    exact h.apart

theorem Inv.setCycle {cycleTicks : UInt32} (hfit : cycleTicks.toNat < 2 ^ 31)
    (hstep : commandSetDigitalOutPwmCycle cycleTicks g.s = .ok s') : Inv limit ⟨s', g.last⟩ := by
  rw [commandSetDigitalOutPwmCycle] at hstep
  split at hstep
  · cases hstep
  · rename_i hmq
    cases hstep
    refine { h with
      cycle := hfit, apart := ?_, watched := fun hactive => { h.watched hactive with } }
    show g.s.mq.IsChain _
    rw [not_not.mp hmq]
    exact .nil

include hpos in
theorem Inv.maxDuration_ne : g.s.maxDuration ≠ 0 := by
  rw [h.maxDuration]
  rintro rfl
  exact absurd hpos (Nat.lt_irrefl 0)

include hlimit in
theorem Inv.queueFirst {time onTicks : UInt32} (hmq : g.s.mq = [])
    (hstep : commandQueueDigitalOut time onTicks g.s = .ok s') : Inv limit ⟨s', g.last⟩ := by
  rw [commandQueueDigitalOut, if_neg (not_not.mpr hmq)] at hstep
  split at hstep
  · cases hstep
  rename_i hend
  have hbounds : Active g.s → elapsed g.last time ≤ limit.toNat ∧
      (limit.toNat : Int) - 2 ^ 31 < elapsed g.last time := by
    intro hactive
    have hw := h.watched hactive
    rw [h.watched hactive |>.alone hmq] at hend
    exact elapsed_of_not_before hlimit (Bool.eq_false_iff.mpr fun hb => hend ⟨hw.checkEnd, hb⟩)
  have hqueue : ∀ m ∈ [(⟨time, onTicks⟩ : Move)].head?, time = m.waketime := by
    rintro m hm
    cases hm
    rfl
  dsimp only at hstep
  split at hstep
  · -- the toggle event will hand over to the load event
    rename_i hkeep
    cases hstep
    have hactive : Active g.s := .inr hkeep.1
    have hw := h.watched hactive
    obtain ⟨hle, hgt⟩ := hbounds hactive
    have hfunc : g.s.func = .toggle := by
      cases hf : g.s.func with
      | toggle => rfl
      | load =>
        have hdue := h.due hw.armed hf
        rw [hdue] at hkeep
        exact absurd ⟨hw.checkEnd, hkeep.2⟩ hend
    obtain ⟨hpos, hlt, hdurations⟩ := hw.toggle hfunc
    have hlow := hw.le
    have htime := (@timerIsBefore_iff_elapsed g.last g.s.waketime time
      (by omega) (by omega)).mp hkeep.2
    refine ⟨h.maxDuration, h.cycle, ?_, fun _ _ => hkeep.1, hqueue, .singleton _, fun _ => ?_⟩
    · intro _ hf
      cases hfunc.symm.trans hf
    · exact ⟨hw.armed, rfl, nofun, hle, hgt, fun _ => ⟨hpos, htime, hdurations⟩⟩
  · cases hstep
    refine ⟨h.maxDuration, h.cycle, fun _ _ => rfl, fun _ => nofun, hqueue, .singleton _, ?_⟩
    intro hactive
    obtain ⟨hle, hgt⟩ := hbounds hactive
    exact ⟨rfl, rfl, nofun, hle, hgt, nofun⟩

theorem Inv.queueBehind {time onTicks : UInt32} (hmq : g.s.mq ≠ [])
    (hfit : (Op.queue time onTicks).Fits g.s)
    (hstep : commandQueueDigitalOut time onTicks g.s = .ok s') : Inv limit ⟨s', g.last⟩ := by
  rw [commandQueueDigitalOut, if_pos hmq] at hstep
  cases hstep
  refine { h with queue := ?_, apart := ?_, watched := ?_ }
  · obtain ⟨first, rest, hcons⟩ := List.exists_cons_of_ne_nil hmq
    show ∀ m ∈ (g.s.mq ++ [(⟨time, onTicks⟩ : Move)]).head?, _
    intro m hm
    refine h.queue m ?_
    rw [hcons] at hm ⊢
    exact hm
  · refine List.isChain_append.mpr ⟨h.apart, .singleton _, ?_⟩
    intro m hm n hn
    cases hn
    exact hfit m hm
  · intro hactive
    refine { h.watched hactive with alone := fun hnil => ?_ }
    exact absurd hnil (List.append_ne_nil_of_right_ne_nil _ (List.cons_ne_nil _ _))

include hpos hlimit

theorem Inv.update {value now : UInt32} (hstep : commandUpdateDigitalOut value now g.s = .ok s') :
    Inv limit ⟨s', now⟩ := by
  rw [commandUpdateDigitalOut] at hstep
  split at hstep
  · cases hstep
  · rename_i hmq
    have hempty : g.s.mq = [] := not_not.mp hmq
    have hqueue : ∀ {t : UInt32}, ∀ m ∈ g.s.mq.head?, t = m.waketime := by
      rw [hempty]
      exact nofun
    dsimp only at hstep
    split at hstep
    · cases hstep
      refine ⟨h.maxDuration, h.cycle, fun _ _ => rfl, fun _ => nofun, hqueue, h.apart, fun _ => ?_⟩
      have hmax : elapsed now (now + g.s.maxDuration) = limit.toNat := by
        rw [h.maxDuration]
        exact elapsed_self_add hlimit
      refine ⟨rfl, rfl, fun _ => congrArg (now + ·) h.maxDuration, ?_, ?_, nofun⟩
      · exact hmax.le
      · show _ < elapsed now (now + g.s.maxDuration)
        omega
    · rename_i hdefault
      cases hstep
      refine ⟨h.maxDuration, h.cycle, nofun, nofun, hqueue, h.apart, ?_⟩
      rintro (hpin | htoggling)
      · exact absurd ⟨hpin, h.maxDuration_ne hpos⟩ hdefault
      · cases htoggling

/-- The deadline a load sets for a pin that is then away from its default. -/
theorem Inv.loadDeadline (hmq : g.s.mq = m :: mq) (hwake : g.s.waketime = m.waketime)
    (hnext : nextEnd mq (loadEnd g.s m) = .ok e) (hactive : Active (g.s.loaded m mq e)) :
    e.2 = true ∧ (mq = [] → e.1 = g.s.waketime + limit) ∧ elapsed g.s.waketime e.1 ≤ limit.toNat ∧
      (limit.toNat : Int) - 2 ^ 31 < elapsed g.s.waketime e.1 ∧
      (0 < m.onDuration.toNat → m.onDuration < g.s.cycleTime →
        (m.onDuration.toNat : Int) - elapsed g.s.waketime e.1 < 2 ^ 31) := by
  have hcycle := h.cycle
  rw [loadEnd_of_active (h.maxDuration_ne hpos) hactive, h.maxDuration] at hnext
  obtain ⟨hnil, hhead⟩ := nextEnd_ok hnext
  cases mq with
  | nil =>
    obtain rfl := hnil rfl
    rw [elapsed_self_add hlimit]
    refine ⟨rfl, fun _ => rfl, le_refl _, by omega, fun _ hon => ?_⟩
    have hlt := UInt32.lt_iff_toNat_lt.mp hon
    omega
  | cons n mq =>
    obtain ⟨rfl, hnot⟩ := hhead n rfl
    obtain ⟨hle, hgt⟩ := elapsed_of_not_before hlimit
      (Bool.eq_false_iff.mpr fun hb => hnot ⟨rfl, hb⟩)
    have hapart : Apart g.s.cycleTime m n := by
      have hchain := h.apart
      rw [hmq] at hchain
      exact (List.isChain_cons_cons.mp hchain).1
    refine ⟨rfl, nofun, hle, hgt, ?_⟩
    rw [hwake]
    exact hapart

theorem Inv.loadEvent (harmed : g.s.armed = true) (hfunc : g.s.func = .load)
    (hload : digitalLoadEvent g.s = .ok s') : Inv limit ⟨s', g.s.waketime⟩ := by
  obtain ⟨m, mq, e, hmq, hnext, rfl⟩ := digitalLoadEvent_ok hload
  have hwake : g.s.waketime = m.waketime :=
    (h.due harmed hfunc).trans (h.queue m (by rw [hmq]; rfl))
  have hrest : mq.IsChain (Apart g.s.cycleTime) := by
    have hchain := h.apart
    rw [hmq] at hchain
    exact hchain.tail
  have hqueue := fun n hn => congrArg Prod.fst ((nextEnd_ok hnext).2 n hn).1
  have hdeadline := h.loadDeadline hpos hlimit hmq hwake hnext
  rcases scheduleNext_cases (g.s.loaded m mq e) m.onDuration with
    ⟨heq, htoggling, hcheck⟩ | heq | ⟨heq, htoggling, hbefore⟩
  · -- nothing is scheduled: the pin is at its default
    rw [heq]
    refine ⟨h.maxDuration, h.cycle, ?_, ?_, hqueue, hrest, ?_⟩
    · rintro ⟨⟩
    · rintro ⟨⟩
    · intro hactive
      cases hcheck.symm.trans (hdeadline hactive).1
  · rw [heq]
    refine ⟨h.maxDuration, h.cycle, fun _ _ => rfl, ?_, hqueue, hrest, ?_⟩
    · intro _ hf
      cases hfunc.symm.trans hf
    · intro hactive
      obtain ⟨hcheck, halone, hle, hgt, -⟩ := hdeadline hactive
      refine ⟨harmed, hcheck, halone, hle, hgt, fun hf => ?_⟩
      cases hfunc.symm.trans hf
  · rw [heq]
    obtain ⟨hcheck, halone, hle, hgt, hspan⟩ := hdeadline (.inr htoggling)
    have hnot := of_decide_eq_true htoggling
    obtain ⟨hnonzero, hshort⟩ := not_or.mp hnot
    have hon : m.onDuration < g.s.cycleTime := UInt32.not_le.mp hshort
    have honpos : 0 < m.onDuration.toNat := by
      refine Nat.pos_of_ne_zero fun hzero => hnonzero ?_
      exact UInt32.toNat_inj.mp hzero
    have honlt := UInt32.lt_iff_toNat_lt.mp hon
    have hcycle := h.cycle
    have hstart : elapsed g.s.waketime g.s.waketime = 0 := by
      rw [elapsed, UInt32.sub_self]
      rfl
    have hfirst := (@timerIsBefore_add_iff g.s.waketime g.s.waketime e.1
      m.onDuration (by omega) (by have := hspan honpos hon; omega)).mp (hbefore hcheck)
    refine ⟨h.maxDuration, h.cycle, fun _ hf => (by cases hf), fun _ _ => htoggling, hqueue,
      hrest, fun _ => ⟨harmed, hcheck, halone, hle, hgt, fun _ => ?_⟩⟩
    show 0 < elapsed g.s.waketime (g.s.waketime + m.onDuration) ∧
      elapsed g.s.waketime (g.s.waketime + m.onDuration) < elapsed g.s.waketime e.1 ∧
      (0 < m.onDuration.toNat ∧ m.onDuration.toNat < 2 ^ 31) ∧
      0 < (g.s.cycleTime - m.onDuration).toNat ∧
      (g.s.cycleTime - m.onDuration).toNat < 2 ^ 31
    have hoff := UInt32.toNat_sub_of_le _ _ (UInt32.le_of_lt hon)
    rw [elapsed_self_add (by omega)]
    omega

/-- **ONE STEP** that fits keeps the invariant. -/
theorem Inv.step (hfit : op.Fits g.s) (hstep : g.step op = .ok g') : Inv limit g' := by
  cases op with
  | queue time onTicks =>
    obtain ⟨s', hs', rfl⟩ := Result.map_eq_ok hstep
    by_cases hmq : g.s.mq = []
    · exact h.queueFirst hlimit hmq hs'
    · exact h.queueBehind hmq hfit hs'
  | update value now =>
    obtain ⟨s', hs', rfl⟩ := Result.map_eq_ok hstep
    exact h.update hpos hlimit hs'
  | setCycle cycleTicks =>
    obtain ⟨s', hs', rfl⟩ := Result.map_eq_ok hstep
    exact h.setCycle hfit hs'
  | timer =>
    rw [Sys.step] at hstep
    split at hstep
    · cases hstep
      exact h
    · rename_i harmed
      have harmed : g.s.armed = true := not_not.mp harmed
      cases hfunc : g.s.func with
      | toggle =>
        rw [hfunc] at hstep
        cases hstep
        exact h.toggleEvent hlimit harmed hfunc
      | load =>
        rw [hfunc] at hstep
        obtain ⟨s', hs', rfl⟩ := Result.map_eq_ok hstep
        exact h.loadEvent hpos hlimit harmed hfunc hs'

theorem Inv.run (hfit : g.AllFit ops) (hrun : g.run ops = .ok g') : Inv limit g' := by
  induction ops generalizing g with
  | nil =>
    cases hrun
    exact h
  | cons op ops ih =>
    rw [Sys.run, List.foldlM_cons] at hrun
    obtain ⟨g₁, hstep, hrest⟩ := Result.bind_eq_ok hrun
    exact ih (h.step hpos hlimit hfit.1 hstep) (hfit.2 g₁ hstep) hrest

end Steps

/-- A new output whose value is its default. -/
theorem inv_config {value defaultValue : UInt32} (hdefault : value ≠ 0 ↔ defaultValue ≠ 0) :
    Inv limit ⟨commandConfigDigitalOut value defaultValue limit, last⟩ := by
  refine ⟨rfl, (by decide : (0 : UInt32).toNat < 2 ^ 31), nofun, nofun, nofun, .nil, ?_⟩
  rintro (hpin | htoggling)
  · exact absurd (decide_eq_decide.mpr hdefault) hpin
  · cases htoggling

/-- **THE WATCHDOG**: while the pin is away from its default or toggling, a load event happens
    within `max_duration` of the last load or update, and one without a move shuts down, which
    brings the pin back. -/
theorem watchdog {value defaultValue : UInt32} (hpos : 0 < limit.toNat)
    (hlimit : limit.toNat < 2 ^ 31) (hdefault : value ≠ 0 ↔ defaultValue ≠ 0)
    (hfit : Sys.AllFit ⟨commandConfigDigitalOut value defaultValue limit, last⟩ ops)
    (hrun : Sys.run ⟨commandConfigDigitalOut value defaultValue limit, last⟩ ops
      = .ok g) :
    (Active g.s → LoadsBy g.last limit.toNat g.s) ∧
      (g.s.mq = [] → digitalLoadEvent g.s = .error .missedScheduling) ∧
      ¬ Active (digitalOutShutdown g.s) := by
  have h := (inv_config hdefault).run hpos hlimit hfit hrun
  refine ⟨fun hactive => ?_, fun hmq => ?_, ?_⟩
  · have hw := h.watched hactive
    exact hw.loadsBy hlimit (h.due hw.armed)
  · rw [digitalLoadEvent, hmq]
  · rintro (hpin | htoggling)
    · exact hpin rfl
    · cases htoggling

/-- A pin that is toggled within its limit, with a move behind it. -/
theorem watchdog_soft_pwm : ∃ g,
    Sys.run ⟨commandConfigDigitalOut 0 0 10, 0⟩
        [.setCycle 4, .queue 100 2, .queue 107 0, .timer] = .ok g ∧
      g.s.flags.toggling = true ∧ LoadsBy g.last (10 : UInt32).toNat g.s := by
  obtain ⟨g, hrun, htoggling⟩ : ∃ g, Sys.run ⟨commandConfigDigitalOut 0 0 10, 0⟩
      [.setCycle 4, .queue 100 2, .queue 107 0, .timer] = .ok g ∧
      g.s.flags.toggling = true := ⟨_, rfl, rfl⟩
  have hfit : Sys.AllFit ⟨commandConfigDigitalOut 0 0 10, 0⟩
      [.setCycle 4, .queue 100 2, .queue 107 0, .timer] := by
    refine ⟨(by decide : (4 : UInt32).toNat < 2 ^ 31), fun g₁ hcycle => ?_⟩
    cases hcycle
    refine ⟨nofun, fun g₂ hqueue => ?_⟩
    cases hqueue
    refine ⟨?_, fun _ _ => ⟨trivial, fun _ _ => trivial⟩⟩
    rintro m hm
    cases hm
    intro _ _
    decide +kernel
  exact ⟨g, hrun, htoggling, (watchdog (by decide) (by decide) (by decide) hfit
    hrun).1 (.inr htoggling)⟩

/-- What is to happen by a time is not scheduled behind it. -/
theorem LoadsBy.elapsed_le {limit : Int} (h : LoadsBy last limit s) :
    elapsed last s.waketime ≤ limit := by
  induction h with
  | load _ _ hle => exact hle
  | toggle _ _ hlater _ ih => exact hlater.le.trans ih

/-- **A MOVE THAT IS TOO FAR AWAY** passes the check against `max_duration`: `2 ^ 31 + 500`
    ticks look like the past to the check and like the future to the soft PWM. -/
theorem watchdog_far_move : ∃ g,
    Sys.run ⟨commandConfigDigitalOut 0 0 1, 0⟩
        [.setCycle 2000, .queue 1000 1000, .queue (1000 + 0x80000000 + 500) 0,
          .timer] = .ok g ∧
      Active g.s ∧ ¬ LoadsBy g.last (1 : UInt32).toNat g.s := by
  obtain ⟨g, hrun, htoggling, hlate⟩ : ∃ g,
      Sys.run ⟨commandConfigDigitalOut 0 0 1, 0⟩
        [.setCycle 2000, .queue 1000 1000, .queue (1000 + 0x80000000 + 500) 0, .timer] = .ok g ∧
      g.s.flags.toggling = true ∧ elapsed g.last g.s.waketime = 1000 :=
    ⟨_, rfl, rfl, by decide +kernel⟩
  refine ⟨g, hrun, .inr htoggling, fun h => ?_⟩
  have hle := h.elapsed_le
  rw [hlate] at hle
  exact absurd hle (by decide)

end DigitalOut
