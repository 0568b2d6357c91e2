import Pick.StepperPositionProofs
import Pick.StepRoundTripProofs

/-! # The three step functions agree (`src/stepper.c`)

`stepper_event_edge` and `stepper_event_avr` keep the time of the next step in the
timer.  `stepper_event_full` keeps it in `next_step_time`, takes up to two timer
events for a step, and pushes an event back that comes too close behind another.
When each event runs at its time and the steps are at least three times
`step_pulse_ticks` apart, nothing is ever pushed back, and the pulses on the pins
are the same at the same times.

The pulses are those of the step pin, each with the time of the timer event and
the level of the direction pin. -/

namespace Stepper

open List Ramp Timer
open Stepcompress (Msg segments)

/-! ## Timer events at their times -/

/-- What the timer reads in an event that runs at its time, and after a change of direction,
    `delay` later or after the wait for `min_next_time`. -/
def State.onTime (s : State) (delay : UInt32) : Reads where
  event := s.waketime
  turned := (if s.singleSched then s.waketime + s.stepPulseTicks else s.waketime) + delay

/-- A command, or the timer event that is due. -/
inductive Pace where
  | message (msg : Msg)
  | timer (delay : UInt32)

/-- The commands among them. -/
def commands : List Pace → List Msg
  | [] => []
  | .message msg :: paces => msg :: commands paces
  | .timer _ :: paces => commands paces

/-- No reading of the timer is late by more than `step_pulse_ticks`. -/
def Prompt (stepPulseTicks : UInt32) (paces : List Pace) : Prop :=
  ∀ delay, .timer delay ∈ paces → delay.toNat ≤ stepPulseTicks.toNat

variable (b : Board)

/-- One of them, with the pulses it makes. -/
def Mcu.pace (mcu : Mcu) : Pace → Exec Mcu
  | .message msg => mcu.event b (.message msg)
  | .timer delay =>
    if mcu.armed then
      (mcu.s.event b (mcu.s.onTime delay)).map fun r =>
        ⟨r.2, r.1 = .reschedule, mcu.steps ++ (mcu.s.pulses b r.2).map (mcu.s.waketime, ·)⟩
    else .ok mcu

/-- A run in which each event is on time. -/
def Mcu.runOnTime (mcu : Mcu) (paces : List Pace) : Exec Mcu :=
  paces.foldlM (fun mcu p => mcu.pace b p) mcu

/-- A new stepper whose clock has been set. -/
def Mcu.start (invertStep : Int8) (stepPulseTicks clock : UInt32) : Mcu where
  s := { commandConfigStepper b invertStep stepPulseTicks with
    nextStepTime := clock, waketime := clock, needReset := false }
  armed := false
  steps := []

/-! ## Steps that are far enough apart -/

/-- An interval that leaves room for an unstep event and a change of direction. -/
def Roomy (stepPulseTicks interval : UInt32) : Prop :=
  3 * stepPulseTicks.toNat ≤ interval.toNat ∧ interval.toNat < 2 ^ 31

instance (stepPulseTicks interval : UInt32) : Decidable (Roomy stepPulseTicks interval) :=
  inferInstanceAs (Decidable (_ ∧ _))

/-- All intervals of a segment do. -/
def Spaced (stepPulseTicks : UInt32) (g : Segment UInt32 Bool) : Prop :=
  ∀ n < g.count, Roomy stepPulseTicks (after g.add n g.interval)

instance (stepPulseTicks : UInt32) (g : Segment UInt32 Bool) :
    Decidable (Spaced stepPulseTicks g) :=
  inferInstanceAs (Decidable (∀ n < g.count, _))

/-- The timer is set for the step that is due, or for the unstep event behind it. -/
def State.Aligned (s : State) : Prop :=
  s.path b = .full → s.waketime =
    if s.singleSched = true ∨ s.count.toNat % 2 = 0 then s.nextStepTime
    else s.nextStepTime + s.stepPulseTicks

/-- What holds of a stepper whose events run at their times. -/
structure Mcu.OnTime (stepPulseTicks : UInt32) (mcu : Mcu) : Prop where
  valid : mcu.Valid b
  pinned : mcu.s.Pinned b
  ticks : mcu.s.stepPulseTicks = stepPulseTicks
  aligned : mcu.s.count ≠ 0 → mcu.s.Aligned b
  spaced : mcu.s.count ≠ 0 → ∀ g ∈ mcu.s.segs, Spaced stepPulseTicks g

variable {b} {s s' : State} {m : Move} {mq : List Move} {P : UInt32}

/-- Of two times behind a third, the later one is not before the other. -/
theorem not_before_of_le {t i k : UInt32} (hle : k.toNat ≤ i.toNat)
    (hi : i.toNat < 2 ^ 31) : timerIsBefore (t + i) (t + k) = false := by
  refine Bool.eq_false_iff.mpr fun hbefore => ?_
  rw [timerIsBefore_iff, add_sub_add_left_eq_sub,
    UInt32.toNat_sub_of_le _ _ (UInt32.le_iff_toNat_le.mpr hle)] at hbefore
  omega

theorem toNat_add_le (a c : UInt32) : (a + c).toNat ≤ a.toNat + c.toNat := by
  rw [UInt32.toNat_add]
  exact Nat.mod_le _ _

/-- The first interval of a segment with steps. -/
theorem Spaced.head {g : Segment UInt32 Bool} (h : Spaced P g) (hpos : 0 < g.count) :
    Roomy P g.interval :=
  h 0 hpos

/-- Without its first step, a segment stays as it is. -/
theorem Spaced.tail {interval add : UInt32} {n : Nat} {mark : Bool}
    (h : Spaced P ⟨interval, n + 1, add, mark⟩) : Spaced P ⟨interval + add, n, add, mark⟩ :=
  fun k hk => h (k + 1) (Nat.succ_lt_succ hk)

/-! ## What is ahead stays spaced -/

/-- Loading a move takes it from the queue. -/
theorem Loads.spaced (h : Loads b s m mq s') (hm : m.count ≠ 0)
    (hqueued : ∀ g ∈ queued s.dirPin (m :: mq), Spaced P g) : ∀ g ∈ s'.segs, Spaced P g := by
  rw [queued, h.left hm] at hqueued
  obtain ⟨hfirst, hrest⟩ := forall_mem_cons.mp hqueued
  rw [State.segs, h.interval, h.add, h.dirPin, h.mq]
  exact forall_mem_cons.mpr ⟨hfirst.tail, hrest⟩

theorem Fires.spaced {sched : Sched} (h : Fires b s sched s') (hs : s.Valid b)
    (hspaced : ∀ g ∈ s.segs, Spaced P g) (hc : s'.count ≠ 0) : ∀ g ∈ s'.segs, Spaced P g := by
  obtain ⟨hfirst, hrest⟩ := forall_mem_cons.mp hspaced
  cases h with
  | unstep hsingle heven _ h =>
    rw [State.segs, h.interval, h.add, h.dirPin, h.mq, h.left_unstep hsingle heven]
    exact hspaced
  | next hlast _ h =>
    rw [h.left_next hc hlast] at hfirst
    rw [State.segs, h.interval, h.add, h.dirPin, h.mq]
    exact forall_mem_cons.mpr ⟨hfirst.tail, hrest⟩
  | load _ hmq h =>
    rw [hmq] at hrest
    exact h.spaced (hs.head hmq) hrest
  | finish hone _ h => exact absurd (h.count_eq_zero hone) hc

/-! ## The timer stays aligned -/

section Aligned

variable {turned : UInt32} (hs : s.Configured b) (hp : s.path b = .full)
  (hmq : s.mq = m :: mq)
  (hclose : s.count ≠ 0 → timerIsBefore (s.nextStepTime + m.interval) s.waketime = false)
  (hturn : s.count ≠ 0 →
    timerIsBefore (s.nextStepTime + m.interval) (turned + s.stepPulseTicks) = false)
include hclose hturn

theorem loadFull_aligned :
    ∃ s', loadFull b turned m s = .ok s' ∧ s'.waketime = s'.nextStepTime := by
  have hkeep : ¬ (s.count ≠ 0 ∧ timerIsBefore (s.nextStepTime + m.interval) s.waketime = true) :=
    fun h => nomatch (hclose h.1).symm.trans h.2
  have hstay : ¬ (s.count ≠ 0 ∧ m.dir = true ∧
      timerIsBefore (s.nextStepTime + m.interval) (turned + s.stepPulseTicks) = true) :=
    fun h => nomatch (hturn h.1).symm.trans h.2.2
  rw [loadFull]
  dsimp only
  rw [if_neg fun h => hkeep h.1, if_neg hkeep, if_neg hstay]
  exact ⟨_, rfl, rfl⟩

include hs hp hmq in
/-- **LOADING FOR THE FULL PATH** sets the timer for the first step, unless this is too
    close behind the last event or behind the change of direction. -/
theorem loadNext_aligned :
    ∃ s', loadNext b turned s = .ok (.reschedule, s') ∧ s'.waketime = s'.nextStepTime := by
  rw [loadNext, hmq]
  dsimp only
  rw [hs.branches.1, hs.branches.2, hp]
  obtain ⟨s', hload, hwake⟩ := @loadFull_aligned b { s with
    mq := mq
    position := (if m.dir then -s.position else s.position) + m.count.toUInt32
    add := m.add
    interval := m.interval + m.add.toInt32.toUInt32 } m turned hclose hturn
  refine ⟨s', ?_, hwake⟩
  show (loadFull b turned m _).map _ = _
  rw [hload]
  rfl

end Aligned

/-- Behind a move that is loaded the timer is set for a step. -/
theorem Loads.aligned (h : Loads b s m mq s') (hwake : s'.waketime = s'.nextStepTime) :
    s'.Aligned b := by
  intro _
  rw [hwake, if_pos h.due]

section FullPath

variable (hp : s.path b = .full) (hal : s.Aligned b) {i delay : UInt32}
include hp hal

/-- A step far enough away is not pushed back by the event before it. -/
theorem not_before_event (hi : Roomy s.stepPulseTicks i) :
    timerIsBefore (s.nextStepTime + i) (s.waketime + s.stepPulseTicks) = false := by
  have htwo := toNat_add_le s.stepPulseTicks s.stepPulseTicks
  obtain ⟨hroom, hhalf⟩ := hi
  rw [hal hp]
  split
  · exact not_before_of_le (by omega) hhalf
  · rw [add_assoc]
    exact not_before_of_le (by omega) hhalf

/-- Nor by a change of direction at the end of a move. -/
theorem not_before_turn (hlast : s.singleSched = true ∨ s.count.toNat % 2 = 1)
    (hdelay : delay.toNat ≤ s.stepPulseTicks.toNat) (hi : Roomy s.stepPulseTicks i) :
    timerIsBefore (s.nextStepTime + i) ((s.onTime delay).turned + s.stepPulseTicks) = false := by
  have hturned : (s.onTime delay).turned = s.nextStepTime + (s.stepPulseTicks + delay) := by
    rw [State.onTime, hal hp]
    by_cases hsingle : s.singleSched = true
    · rw [if_pos hsingle, if_pos (.inl hsingle), add_assoc]
    · have hodd := hlast.resolve_left hsingle
      rw [if_neg hsingle, if_neg (by rintro (h | h); exacts [hsingle h, by omega]), add_assoc]
  have hthree := toNat_add_le (s.stepPulseTicks + delay) s.stepPulseTicks
  have htwo := toNat_add_le s.stepPulseTicks delay
  obtain ⟨hroom, hhalf⟩ := hi
  rw [hturned, add_assoc]
  exact not_before_of_le (by omega) hhalf

/-- After the last step of a move the next one is loaded, if there is one. -/
theorem eventFull_loads (hs : s.Valid b)
    (hrest : ∀ g ∈ queued s.dirPin s.mq, Spaced s.stepPulseTicks g)
    (hlast : s.singleSched = true ∨ s.count.toNat % 2 = 1)
    (hdelay : delay.toNat ≤ s.stepPulseTicks.toNat) :
    ∃ r, loadNext b (s.onTime delay).turned { s.toggleStep with
        waketime := (s.onTime delay).event + s.toggleStep.stepPulseTicks } = .ok r ∧
      r.2.stepPulseTicks = s.stepPulseTicks ∧ (r.2.count ≠ 0 → r.2.Aligned b) := by
  cases hmq : s.mq with
  | nil =>
    rw [loadNext]
    dsimp only [State.toggleStep]
    rw [hmq]
    exact ⟨_, rfl, rfl, fun h => absurd rfl h⟩
  | cons m mq =>
    have hm := hs.head hmq
    rw [hmq, queued] at hrest
    have hroomy : Roomy s.stepPulseTicks m.interval := by
      refine (forall_mem_cons.mp hrest).1.head ?_
      exact Nat.pos_of_ne_zero fun h0 => hm (UInt16.toNat_inj.mp h0)
    have hconf : State.Configured b { s.toggleStep with
        waketime := (s.onTime delay).event + s.toggleStep.stepPulseTicks } :=
      { hs with }
    obtain ⟨s', hload, hwake⟩ := loadNext_aligned hconf hp hmq
      (fun _ => not_before_event hp hal hroomy)
      (fun _ => not_before_turn hp hal hlast hdelay hroomy)
    have hticks := (loadNext_frame hload).2.2
    refine ⟨_, hload, hticks, fun _ => ?_⟩
    exact (loadNext_cons hconf hmq hload).2.aligned hwake

end FullPath

/-- **THE TIMER STAYS ALIGNED** on every path: an event on time does not shut down. -/
theorem event_aligned {delay : UInt32} (hs : s.Valid b) (hc : s.count ≠ 0)
    (hal : s.Aligned b) (hspaced : ∀ g ∈ s.segs, Spaced s.stepPulseTicks g)
    (hdelay : delay.toNat ≤ s.stepPulseTicks.toNat) :
    ∃ r, s.event b (s.onTime delay) = .ok r ∧
      r.2.stepPulseTicks = s.stepPulseTicks ∧ (r.2.count ≠ 0 → r.2.Aligned b) := by
  obtain ⟨hfirst, hrest⟩ := forall_mem_cons.mp hspaced
  have hcount := Words.toNat_sub_one hc
  have hcounts := event_counts (s.onTime delay) hs hc
  generalize s.event b (s.onTime delay) = r at hcounts ⊢
  cases hcounts with
  | unstep hp hsingle heven =>
    refine ⟨_, rfl, rfl, fun _ _ => ?_⟩
    show s.waketime + s.stepPulseTicks =
      if s.singleSched = true ∨ (s.count - 1).toNat % 2 = 0 then s.nextStepTime
      else s.nextStepTime + s.stepPulseTicks
    rw [hal hp, if_pos (.inr heven), hsingle, if_neg]
    rintro (hsingle | heven')
    · cases hsingle
    · omega
  | @next _ waketime nextStepTime _ hlast hc' hfull _ =>
    refine ⟨_, rfl, rfl, fun _ (hp : s.path b = .full) => ?_⟩
    obtain ⟨hnext, hwake⟩ := hfull hp
    have hpos : (s.count - 1).toNat ≠ 0 := fun h0 => hc' (UInt32.toNat_inj.mp h0)
    have hleft : 0 < s.left := by
      rw [State.left]
      split
      · omega
      · rename_i hsingle
        have hodd := hlast.resolve_left hsingle
        omega
    have hfar : timerIsBefore nextStepTime ((s.onTime delay).event + s.stepPulseTicks) = false := by
      rw [hnext]
      exact not_before_event hp hal (hfirst.head hleft)
    show waketime = if s.singleSched = true ∨ (s.count - 1).toNat % 2 = 0 then nextStepTime
      else nextStepTime + s.stepPulseTicks
    rw [hwake, hfar, if_neg Bool.false_ne_true, if_pos]
    exact hlast.imp_right fun hodd => by omega
  | @last _ waketime _ _ hone hfull _ hr =>
    obtain ⟨r, hload, hticks, hal'⟩ : ∃ r, loadNext b (s.onTime delay).turned
        { s with stepPin := !s.stepPin, waketime := waketime } = .ok r ∧
        r.2.stepPulseTicks = s.stepPulseTicks ∧ (r.2.count ≠ 0 → r.2.Aligned b) := by
      by_cases hp : s.path b = .full
      · rw [hfull hp]
        exact eventFull_loads hp hal hs hrest (.inr (by omega)) hdelay
      · -- the optimized paths keep no second time
        have hload : ∃ r, loadNext b (s.onTime delay).turned
            { s with stepPin := !s.stepPin, waketime := waketime } = .ok r :=
          loadNext_of_not_before { hs with } fun hfull => absurd hfull hp
        obtain ⟨r, hload⟩ := hload
        obtain ⟨-, hfunc, hticks⟩ := loadNext_frame hload
        exact ⟨r, hload, hticks, fun _ hfull => absurd ((path_congr hfunc).symm.trans hfull) hp⟩
    rw [hload] at hr
    exact ⟨_, hr.symm, hticks, hal'⟩

/-! ## One event -/

/-- The pulses of an event on time are the steps that are due, at their times. -/
theorem pulses_stepDue (hs : s.Configured b) (hpin : s.Pinned b) (hal : s.Aligned b)
    (s' : State) : (s.pulses b s').map (s.waketime, ·) = s.stepDue b := by
  rw [pulses_eq hs hpin]
  by_cases hdue : s.singleSched = true ∨ s.count.toNat % 2 = 0
  · have hclock : s.clock b = s.waketime := by
      by_cases hp : s.path b = .full
      · rw [clock_full hp, hal hp, if_pos hdue]
      · exact clock_of_ne_full hp
    rw [if_pos hdue, stepDue_of_due hdue, hclock]
    rfl
  · rw [if_neg hdue, stepDue_of_not_due hs hdue]
    rfl

variable {mcu mcu' : Mcu}

/-- **A TIMER EVENT ON TIME** is one of the events of a run, and the next is on time again. -/
theorem Mcu.OnTime.timer (h : mcu.OnTime b P) {delay : UInt32} (hdelay : delay.toNat ≤ P.toNat) :
    ∃ mcu' reads, mcu.pace b (.timer delay) = .ok mcu' ∧ mcu'.OnTime b P ∧
      mcu.event b (.timer reads) = .ok mcu' ∧ mcu'.s.nextDir = mcu.s.nextDir := by
  by_cases harmed : mcu.armed = true
  · have hc : mcu.s.count ≠ 0 := fun hzero =>
      nomatch (h.valid.unarmed_iff.mpr hzero).symm.trans harmed
    have hs := h.valid.state
    have hspaced := h.spaced hc
    rw [← h.ticks] at hspaced hdelay
    obtain ⟨⟨sched, s'⟩, hev, hticks, hal⟩ := event_aligned hs hc (h.aligned hc) hspaced hdelay
    have hfires := event_fires hs hc hev
    have hpulses := pulses_stepDue hs.toConfigured h.pinned (h.aligned hc) s'
    have hevent : mcu.event b (.timer (mcu.s.onTime delay)) =
        .ok ⟨s', sched = .reschedule, mcu.steps ++ mcu.s.stepDue b⟩ := by
      rw [Mcu.event, if_pos harmed, hev]
      rfl
    refine ⟨_, mcu.s.onTime delay, ?_, ⟨(Mcu.event_spec [] h.valid hevent).1, ?_,
      hticks.trans h.ticks, hal, ?_⟩, hevent, hfires.nextDir⟩
    · rw [Mcu.pace, if_pos harmed, hev, ← hpulses]
      rfl
    · obtain ⟨turn, hticked, hpins⟩ := event_ticks (mcu.s.onTime delay) hs hc
      rw [hev] at hticked
      exact hfires.pinned hs.toConfigured h.pinned hticked.fixed (hpins _ _ hev).2
    · intro hc'
      rw [h.ticks] at hspaced
      exact hfires.spaced hs hspaced hc'
  · refine ⟨mcu, ⟨0, 0⟩, ?_, h, ?_, rfl⟩
    · rw [Mcu.pace, if_neg harmed]
    · rw [Mcu.event, if_neg harmed]

/-- A move that finds the stepper idle. -/
theorem Mcu.OnTime.load (h : mcu.OnTime b P) (hzero : mcu.s.count = 0) {m : Move}
    (hm : m.count ≠ 0) (hdir : m.dir = decide (mcu.s.lastDir ≠ mcu.s.nextDir))
    (hspaced : Spaced P ⟨m.interval, m.count.toNat, m.add.toInt32.toUInt32, mcu.s.nextDir⟩) :
    ∃ r, loadNext b 0 (mcu.s.queue m) = .ok r ∧
      r.2.Pinned b ∧ r.2.stepPulseTicks = P ∧ r.2.Aligned b ∧ ∀ g ∈ r.2.segs, Spaced P g := by
  have hs := h.valid.state
  have hmq := hs.idle hzero
  have hlast : mcu.s.dirPin = mcu.s.lastDir := by
    have hdirs := hs.dir
    rw [hmq] at hdirs
    exact hdirs
  have hone := State.queue_mq hmq m
  have hconf := hs.toConfigured.queue m
  obtain ⟨r, hload, hwake⟩ : ∃ r, loadNext b 0 (mcu.s.queue m) = .ok r ∧
      (mcu.s.path b = .full → r.2.waketime = r.2.nextStepTime) := by
    by_cases hp : mcu.s.path b = .full
    · obtain ⟨s', hload, hwake⟩ := loadNext_aligned hconf hp hone
        (fun hc => absurd hzero hc) (fun hc => absurd hzero hc)
      exact ⟨_, hload, fun _ => hwake⟩
    · obtain ⟨r, hload⟩ := loadNext_of_not_before hconf fun hfull => absurd hfull hp
      exact ⟨r, hload, fun hfull => absurd hfull hp⟩
  have hloads := (loadNext_cons hconf hone hload).2
  have hcredits := loadNext_credits 0 hconf hone
  rw [hload] at hcredits
  have hticks := (loadNext_frame hload).2.2
  refine ⟨r, hload, hloads.pinned hcredits hzero h.pinned, hticks.trans h.ticks, ?_, ?_⟩
  · intro hp
    exact hloads.aligned (hwake (hloads.same.path.symm.trans hp)) hp
  · refine hloads.spaced hm ?_
    show ∀ g ∈ queued mcu.s.dirPin [m], Spaced P g
    have hturn : (mcu.s.lastDir ^^ m.dir) = mcu.s.nextDir := by
      rw [hdir]
      cases mcu.s.lastDir <;> cases mcu.s.nextDir <;> rfl
    rw [queued, queued, hlast, hturn]
    exact forall_mem_singleton.mpr hspaced

/-- **A MOVE** that is not empty is taken, and the events stay on time. -/
theorem Mcu.OnTime.queueStep (h : mcu.OnTime b P) {interval count add : UInt32}
    (hm : count.toUInt16 ≠ 0)
    (hspaced : ∀ g ∈ segments mcu.s.nextDir [.queueStep interval count add], Spaced P g) :
    ∃ mcu', mcu.event b (.message (.queueStep interval count add)) = .ok mcu' ∧
      mcu'.OnTime b P ∧ mcu'.s.nextDir = mcu.s.nextDir := by
  have hseg := forall_mem_singleton.mp hspaced
  obtain ⟨added, s', hcmd, hpinned, hticks, hal, hsegs⟩ : ∃ added s',
      commandQueueStep b interval count add mcu.s = .ok (added, s') ∧ s'.Pinned b ∧
        s'.stepPulseTicks = P ∧ s'.Aligned b ∧ ∀ g ∈ s'.segs, Spaced P g := by
    rw [commandQueueStep]
    dsimp only
    rw [if_neg hm]
    by_cases hzero : mcu.s.count = 0
    · rw [if_neg (not_not.mpr hzero), if_neg (Bool.eq_false_iff.mp h.valid.state.reset)]
      obtain ⟨r, hload, hrest⟩ := h.load hzero
        (m := ⟨interval, add.toUInt16.toInt16, count.toUInt16,
          mcu.s.lastDir ≠ mcu.s.nextDir⟩) hm rfl hseg
      rw [State.queue] at hload
      rw [hload]
      exact ⟨true, r.2, rfl, hrest⟩
    · rw [if_pos hzero]
      obtain ⟨hfirst, hrest⟩ := forall_mem_cons.mp (h.spaced hzero)
      refine ⟨false, _, rfl, h.pinned, h.ticks, h.aligned hzero, forall_mem_cons.mpr ⟨hfirst, ?_⟩⟩
      -- the move goes to the end of the queue
      show ∀ g ∈ queued mcu.s.dirPin (mcu.s.mq ++ _), _
      rw [queued_append, h.valid.state.dir, queued_move]
      exact forall_mem_append.mpr ⟨hrest, forall_mem_singleton.mpr hseg⟩
  have hevent : mcu.event b (.message (.queueStep interval count add)) =
      .ok { mcu with s := s', armed := mcu.armed || added } := by
    rw [Mcu.event, hcmd]
    rfl
  refine ⟨_, hevent, ⟨(Mcu.event_spec [] h.valid hevent).1, hpinned, hticks, fun _ => hal,
    fun _ => hsegs⟩, ?_⟩
  exact (commandQueueStep_spec [] h.valid.state hcmd).2.1

/-! ## Runs -/

/-- A `queue_step` without steps, which the firmware refuses with a shutdown. -/
def HasEmptyMove (msgs : List Msg) : Prop :=
  ∃ interval count add, .queueStep interval count add ∈ msgs ∧ count.toUInt16 = 0

theorem not_hasEmptyMove_nil : ¬ HasEmptyMove [] := by
  rintro ⟨interval, count, add, hmem, -⟩
  cases hmem

theorem commands_cons (p : Pace) (paces : List Pace) :
    commands (p :: paces) = commands [p] ++ commands paces := by
  cases p <;> rfl

theorem hasEmptyMove_append (msgs msgs' : List Msg) :
    HasEmptyMove (msgs ++ msgs') ↔ HasEmptyMove msgs ∨ HasEmptyMove msgs' := by
  simp only [HasEmptyMove, mem_append, or_and_right, exists_or]

/-- **ONE EVENT OR COMMAND** on time: an empty move is refused, all else is an event of
    a run of the firmware. -/
theorem Mcu.OnTime.step (h : mcu.OnTime b P) {p : Pace} (hprompt : Prompt P [p])
    (hspaced : ∀ g ∈ segments mcu.s.nextDir (commands [p]), Spaced P g) :
    (HasEmptyMove (commands [p]) ∧ ∃ s, mcu.pace b p = .error (.invalidCount, s)) ∨
      (¬ HasEmptyMove (commands [p]) ∧ ∃ mcu' ev, mcu.pace b p = .ok mcu' ∧
        mcu'.OnTime b P ∧ mcu.event b ev = .ok mcu' ∧ delivered [ev] = commands [p] ∧
        mcu'.s.nextDir = Stepcompress.lastDir mcu.s.nextDir (commands [p])) := by
  cases p with
  | timer delay =>
    obtain ⟨mcu', reads, hpace, h', hevent, hdir⟩ := h.timer (hprompt delay (mem_singleton_self _))
    exact .inr ⟨not_hasEmptyMove_nil, mcu', .timer reads, hpace, h', hevent, rfl, hdir⟩
  | message msg =>
    cases msg with
    | setNextStepDir dir =>
      have hevent : mcu.event b (.message (.setNextStepDir dir)) =
          .ok { mcu with s := commandSetNextStepDir dir mcu.s } := rfl
      refine .inr ⟨?_, _, .message _, hevent,
        { h with valid := (Mcu.event_spec [] h.valid hevent).1 }, hevent, rfl, rfl⟩
      rintro ⟨interval, count, add, hmem, -⟩
      exact nomatch mem_singleton.mp hmem
    | queueStep interval count add =>
      by_cases hm : count.toUInt16 = 0
      · refine .inl ⟨⟨interval, count, add, mem_singleton_self _, hm⟩, mcu.s, ?_⟩
        rw [Mcu.pace, Mcu.event, commandQueueStep]
        dsimp only
        rw [if_pos hm]
        rfl
      · obtain ⟨mcu', hevent, h', hdir⟩ := h.queueStep hm hspaced
        refine .inr ⟨?_, mcu', .message _, hevent, h', hevent, rfl, hdir⟩
        rintro ⟨interval', count', add', hmem, hzero⟩
        obtain ⟨-, rfl, -⟩ := Stepcompress.Msg.queueStep.inj (mem_singleton.mp hmem)
        exact hm hzero

/-- **A RUN ON TIME** ends at an empty move, or it is a run of the firmware. -/
theorem Mcu.OnTime.run {paces : List Pace} (h : mcu.OnTime b P) (hprompt : Prompt P paces)
    (hspaced : ∀ g ∈ segments mcu.s.nextDir (commands paces), Spaced P g) :
    (HasEmptyMove (commands paces) ∧ ∃ s, mcu.runOnTime b paces = .error (.invalidCount, s)) ∨
      (¬ HasEmptyMove (commands paces) ∧
        ∃ mcu' events, mcu.runOnTime b paces = .ok mcu' ∧ mcu'.OnTime b P ∧
          mcu.run b events = .ok mcu' ∧ delivered events = commands paces) := by
  induction paces generalizing mcu with
  | nil => exact .inr ⟨not_hasEmptyMove_nil, mcu, [], rfl, h, rfl, rfl⟩
  | cons p paces ih =>
    rw [commands_cons, Stepcompress.segments_append, forall_mem_append] at hspaced
    obtain ⟨hfirst, hrest⟩ := hspaced
    have hpromptFirst : Prompt P [p] := fun delay hmem =>
      hprompt delay (mem_cons.mpr (.inl (mem_singleton.mp hmem)))
    have hpromptRest : Prompt P paces := fun delay hmem => hprompt delay (mem_cons_of_mem _ hmem)
    rw [commands_cons, hasEmptyMove_append, Mcu.runOnTime, foldlM_cons]
    rcases h.step hpromptFirst hfirst with
      ⟨hempty, s, hpace⟩ | ⟨hfull, mcu₁, ev, hpace, h₁, hevent, hev, hdir⟩
    · rw [hpace]
      exact .inl ⟨.inl hempty, s, rfl⟩
    · rw [← hdir] at hrest
      rw [hpace]
      rcases ih h₁ hpromptRest hrest with
        ⟨hempty, s, hrun⟩ | ⟨hnone, mcu', events, hrun, h', hrun', hdelivered⟩
      · exact .inl ⟨.inr hempty, s, hrun⟩
      · refine .inr ⟨not_or.mpr ⟨hfull, hnone⟩, mcu', ev :: events, hrun, h', ?_, ?_⟩
        · rw [Mcu.run, foldlM_cons, hevent]
          exact hrun'
        · rw [delivered_cons, hev, hdelivered]

/-- **TIMER EVENTS ALONE** bring a stepper to rest. -/
theorem Mcu.OnTime.timers (h : mcu.OnTime b P) {delays : List UInt32}
    (hprompt : ∀ delay ∈ delays, delay.toNat ≤ P.toNat) :
    ∃ (mcu' : Mcu) (readings : List Reads),
      mcu.runOnTime b (delays.map .timer) = .ok mcu' ∧
      mcu'.OnTime b P ∧ mcu.run b (readings.map .timer) = .ok mcu' ∧
      readings.length = delays.length := by
  induction delays generalizing mcu with
  | nil => exact ⟨mcu, [], rfl, h, rfl, rfl⟩
  | cons delay delays ih =>
    obtain ⟨hfirst, hrest⟩ := forall_mem_cons.mp hprompt
    obtain ⟨mcu₁, reads, hpace, h₁, hevent, -⟩ := h.timer hfirst
    obtain ⟨mcu', readings, hrun, h', hrun', hlength⟩ := ih h₁ hrest
    refine ⟨mcu', reads :: readings, ?_, h', ?_, congrArg _ hlength⟩
    · rw [map_cons, Mcu.runOnTime, foldlM_cons, hpace]
      exact hrun
    · rw [map_cons, Mcu.run, foldlM_cons, hevent]
      exact hrun'

/-! ## The paths agree -/

/-- A new stepper is on time, and all steps are still to come. -/
theorem onTime_start (b : Board) (invertStep : Int8) (stepPulseTicks clock : UInt32) :
    (Mcu.start b invertStep stepPulseTicks clock).OnTime b stepPulseTicks ∧
      (Mcu.start b invertStep stepPulseTicks clock).s.nextDir = false ∧
      ∀ msgs, (Mcu.start b invertStep stepPulseTicks clock).allSteps b msgs =
        train clock (segments false msgs) := by
  obtain ⟨s, hs, hsync⟩ := @Stepcompress.synced_reset b invertStep stepPulseTicks clock
  obtain ⟨-, hzero, -, -, -, -, -, -, hticks, hdir⟩ :=
    commandConfigStepper_spec b invertStep stepPulseTicks
  have hstart : Mcu.start b invertStep stepPulseTicks clock = ⟨s, false, []⟩ := by
    rw [commandResetStepClock, if_neg (not_not.mpr hzero)] at hs
    rw [← Except.ok.inj hs]
    rfl
  have hpinned := (sound_start b invertStep stepPulseTicks).pinned
  refine ⟨⟨?_, hpinned, hticks, fun hc => absurd hzero hc, fun hc => absurd hzero hc⟩, hdir,
    fun msgs => ?_⟩
  · rw [hstart]
    exact hsync.valid
  · have hnext := congrArg (fun mcu : Mcu => mcu.s.nextDir) hstart
    have hdir' : s.nextDir = false := hnext.symm.trans hdir
    rw [hstart, Mcu.allSteps, State.ahead, if_pos hsync.idle, hsync.clock]
    show [] ++ train clock (segments s.nextDir msgs) = _
    rw [hdir', nil_append]

variable (b) in
/-- The steps made so far are the first of `all`; when no timer is left they are `all`,
    and timer events alone lead there. -/
structure Mcu.Performs (P : UInt32) (all : List (UInt32 × Bool)) (mcu : Mcu) : Prop where
  soFar : mcu.steps <+: all
  done : mcu.armed = false → mcu.steps = all
  finishes : ∀ delays : List UInt32, (∀ delay ∈ delays, delay.toNat ≤ P.toNat) →
    mcu.s.work ≤ delays.length → ∃ mcu' : Mcu,
      mcu.runOnTime b (delays.map .timer) = .ok mcu' ∧ mcu'.armed = false ∧
      mcu'.steps = all

/-- A stepper that is at rest has made all steps. -/
theorem Mcu.Valid.steps_of_unarmed {all : List (UInt32 × Bool)} (h : mcu.Valid b)
    (hall : mcu.allSteps b [] = all) (harmed : mcu.armed = false) : mcu.steps = all := by
  rw [Mcu.allSteps, State.ahead, if_pos (h.unarmed_iff.mp harmed), segments, train,
    append_nil] at hall
  exact hall

theorem Mcu.OnTime.performs {all : List (UInt32 × Bool)} (h : mcu.OnTime b P)
    (hall : mcu.allSteps b [] = all) : mcu.Performs b P all := by
  refine ⟨⟨_, hall⟩, h.valid.steps_of_unarmed hall, fun delays hprompt henough => ?_⟩
  obtain ⟨mcu', readings, hrun, h', hrun', hlength⟩ := h.timers hprompt
  have hwork := Mcu.run_timers_work h.valid hrun'
  have harmed := h'.valid.unarmed_iff.mpr (count_of_work (by omega))
  have hall' := (Mcu.run_spec [] h.valid hrun').2
  rw [delivered_timers, append_nil, hall] at hall'
  exact ⟨mcu', hrun, harmed, h'.valid.steps_of_unarmed hall' harmed⟩

/-- **ONE PATH**: a new stepper makes the steps of its commands at their times. -/
theorem runOnTime_performs (b : Board) (invertStep : Int8) (stepPulseTicks clock : UInt32)
    {paces : List Pace} (hspaced : ∀ g ∈ segments false (commands paces),
      Spaced stepPulseTicks g) (hprompt : Prompt stepPulseTicks paces) :
    (HasEmptyMove (commands paces) ∧
        ∃ s, (Mcu.start b invertStep stepPulseTicks clock).runOnTime b paces =
          .error (.invalidCount, s)) ∨
      (¬ HasEmptyMove (commands paces) ∧
        ∃ mcu, (Mcu.start b invertStep stepPulseTicks clock).runOnTime b paces = .ok mcu ∧
          mcu.Performs b stepPulseTicks (train clock (segments false (commands paces)))) := by
  obtain ⟨h, hdir, hall⟩ := onTime_start b invertStep stepPulseTicks clock
  rw [← hdir] at hspaced
  refine (h.run hprompt hspaced).imp_right ?_
  rintro ⟨hnone, mcu, events, hrun, h', hrun', hdelivered⟩
  refine ⟨hnone, mcu, hrun, h'.performs ?_⟩
  rw [(Mcu.run_spec [] h.valid hrun').2, hall, hdelivered, append_nil]

/-- **THE PATHS AGREE**: two boards that get the same commands, at any times between their timer
    events, both refuse an empty move, or both make the same steps with the same directions at
    the same times. -/
theorem step_paths_agree (b b' : Board) (invertStep invertStep' : Int8)
    (stepPulseTicks clock : UInt32) {paces paces' : List Pace}
    (hsame : commands paces = commands paces')
    (hspaced : ∀ g ∈ segments false (commands paces), Spaced stepPulseTicks g)
    (hprompt : Prompt stepPulseTicks paces) (hprompt' : Prompt stepPulseTicks paces') :
    ((∃ s, (Mcu.start b invertStep stepPulseTicks clock).runOnTime b paces =
          .error (.invalidCount, s)) ∧
        ∃ s, (Mcu.start b' invertStep' stepPulseTicks clock).runOnTime b' paces' =
          .error (.invalidCount, s)) ∨
      ∃ mcu mcu' all,
        (Mcu.start b invertStep stepPulseTicks clock).runOnTime b paces = .ok mcu ∧
        (Mcu.start b' invertStep' stepPulseTicks clock).runOnTime b' paces' = .ok mcu' ∧
        mcu.Performs b stepPulseTicks all ∧ mcu'.Performs b' stepPulseTicks all := by
  have hother := runOnTime_performs b' invertStep' stepPulseTicks clock (hsame ▸ hspaced) hprompt'
  rw [← hsame] at hother
  rcases runOnTime_performs b invertStep stepPulseTicks clock hspaced hprompt with
    ⟨hempty, herror⟩ | ⟨hnone, mcu, hrun, hperforms⟩
  · exact .inl ⟨herror, (hother.resolve_right fun h => h.1 hempty).2⟩
  · obtain ⟨-, mcu', hrun', hperforms'⟩ := hother.resolve_left fun h => hnone h.1
    exact .inr ⟨mcu, mcu', _, hrun, hrun', hperforms, hperforms'⟩

/-- Boards for the other two paths. -/
def edgeBoard : Board := ⟨true, true, false, 10, 1000⟩

/-- A board with `stepper_event_avr`. -/
def avrBoard : Board := ⟨true, false, true, 0, 1000⟩

/-- Two steps up, then one down; the second move comes between two timer events. -/
def turnPaces : List Pace :=
  [.message (.setNextStepDir 1), .message (.queueStep 100 2 10), .timer 0,
    .message (.setNextStepDir 0), .message (.queueStep 6 1 0)]

theorem step_paths_agree_turn :
    (Mcu.start edgeBoard (-1) 2 1000).s.path edgeBoard = .edge ∧
      (Mcu.start avrBoard 0 2 1000).s.path avrBoard = .avr ∧
      (Mcu.start plainBoard 0 2 1000).s.path plainBoard = .full ∧
      (∃ mcu mcu' all,
        (Mcu.start edgeBoard (-1) 2 1000).runOnTime edgeBoard turnPaces = .ok mcu ∧
        (Mcu.start plainBoard 0 2 1000).runOnTime plainBoard turnPaces = .ok mcu' ∧
        mcu.Performs edgeBoard 2 all ∧ mcu'.Performs plainBoard 2 all) ∧
      ∃ mcu mcu' all,
        (Mcu.start avrBoard 0 2 1000).runOnTime avrBoard turnPaces = .ok mcu ∧
        (Mcu.start plainBoard 0 2 1000).runOnTime plainBoard turnPaces = .ok mcu' ∧
        mcu.Performs avrBoard 2 all ∧ mcu'.Performs plainBoard 2 all := by
  have hspaced : ∀ g ∈ segments false (commands turnPaces), Spaced 2 g := by decide +kernel
  have hprompt : Prompt 2 turnPaces := by
    intro delay hmem
    rw [turnPaces] at hmem
    simp only [mem_cons, reduceCtorEq, Pace.timer.injEq, not_mem_nil, or_false, false_or] at hmem
    rw [hmem]
    exact Nat.zero_le _
  have hgood : ((Mcu.start plainBoard 0 2 1000).runOnTime plainBoard turnPaces).isOk = true := by
    decide +kernel
  have hnot : ¬ ∃ s, (Mcu.start plainBoard 0 2 1000).runOnTime plainBoard turnPaces =
      .error (.invalidCount, s) := by
    rintro ⟨s, hs⟩
    rw [hs] at hgood
    cases hgood
  refine ⟨by decide +kernel, by decide +kernel, by decide +kernel, ?_, ?_⟩
  · exact (step_paths_agree edgeBoard plainBoard (-1) 0 2 1000 rfl hspaced hprompt
      hprompt).resolve_left fun h => hnot h.2
  · exact (step_paths_agree avrBoard plainBoard 0 0 2 1000 rfl hspaced hprompt
      hprompt).resolve_left fun h => hnot h.2

end Stepper
