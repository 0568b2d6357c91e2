import Pick.StepperProofs

/-! # Runs of the firmware stepper

Whatever the order in which messages and timer events come, and whatever the timer
reads, the steps done so far and the steps the state still stands for are one fixed
train: that of the messages. -/

namespace Stepper

open List Ramp Timer Words

variable {b : Board} {s s' : State} {m : Move} {mq : List Move}
  {tail : List (Segment UInt32 Bool)}

theorem State.Valid.head (hs : s.Valid b) (hmq : s.mq = m :: mq) : m.count ≠ 0 := by
  refine hs.counts m ?_
  rw [hmq]
  exact mem_cons_self

/-! ## Timer events -/

variable (b) in
/-- A timer event within a move: the counter goes down by one, and only the
    clock and the interval may change besides. -/
structure Advances (s s' : State) (clock interval : UInt32) : Prop where
  same : Same s s'
  dirs : s'.lastDir = s.lastDir ∧ s'.nextDir = s.nextDir
  mq : s'.mq = s.mq
  dirPin : s'.dirPin = s.dirPin
  add : s'.add = s.add
  haveAdd : s'.haveAdd = s.haveAdd
  clock : s'.clock b = clock
  interval : s'.interval = interval
  count : s'.count.toNat + 1 = s.count.toNat

section Advances

variable {clock interval : UInt32} (h : Advances b s s' clock interval)
include h

theorem Advances.count_ne_zero : s.count ≠ 0 := by
  intro hzero
  have hcount := h.count
  rw [hzero, UInt32.toNat_zero] at hcount
  cases hcount

/-- The last event of a move leaves nothing to count. -/
theorem Advances.count_eq_zero (hone : s.count.toNat = 1) : s'.count = 0 := by
  have hcount := h.count
  apply UInt32.toNat_inj.mp
  rw [UInt32.toNat_zero]
  omega

theorem Advances.valid (hs : s.Valid b) (hidle : s'.count = 0 → s.mq = []) : s'.Valid b := by
  refine ⟨h.same.configured hs.toConfigured, ?_, ?_, ?_, ?_, ?_, ?_⟩
  · rw [h.mq]
    exact hidle
  · rw [h.mq]
    exact hs.counts
  · rw [h.dirPin, h.mq, h.dirs.1]
    exact hs.dir
  · rw [h.same.needReset, hs.reset]
  · intro hp
    rw [h.same.path] at hp
    have hlt := hs.avrCount hp
    have hcount := h.count
    omega
  · intro hp
    rw [h.same.path] at hp
    rw [h.haveAdd, h.add, hs.avrAdd hp]

theorem Advances.left_unstep (hsingle : s.singleSched = false)
    (heven : s.count.toNat % 2 = 0) : s'.left = s.left := by
  have hcount := h.count
  rw [State.left, State.left, hsingle, h.same.singleSched.trans hsingle,
    if_neg Bool.false_ne_true, if_neg Bool.false_ne_true]
  omega

theorem Advances.left_next (hc : s'.count ≠ 0)
    (hlast : s.singleSched = true ∨ s.count.toNat % 2 = 1) : s.left = s'.left + 1 := by
  have hcount := h.count
  have hpos : s'.count.toNat ≠ 0 := fun h0 => hc (UInt32.toNat_inj.mp h0)
  rw [State.left, State.left, h.same.singleSched]
  split
  · omega
  · rename_i hsingle
    have hodd := hlast.resolve_left hsingle
    omega

end Advances

/-- The second event of a step changes nothing ahead. -/
theorem Advances.ahead_unstep (h : Advances b s s' (s.clock b) s.interval)
    (hs : s.Valid b) (hc : s'.count ≠ 0) (hsingle : s.singleSched = false)
    (heven : s.count.toNat % 2 = 0) : s.ahead b tail = s.stepDue b ++ s'.ahead b tail := by
  have hcount := h.count
  have hsingle' := h.same.singleSched.trans hsingle
  have hdue : ¬ (s'.singleSched = true ∨ s'.count.toNat % 2 = 0) := by
    rw [hsingle']
    rintro (hs' | hodd)
    · cases hs'
    · omega
  rw [State.ahead, if_neg h.count_ne_zero, State.ahead, if_neg hc,
    stepDue_of_not_due (h.same.configured hs.toConfigured) hdue,
    nil_append, State.segs, State.segs, h.left_unstep hsingle heven, h.clock,
    h.interval, h.add, h.dirPin, h.mq]

/-- The last event of a step schedules the next one of its move. -/
theorem Advances.ahead_next
    (h : Advances b s s' (s.clock b + s.interval) (s.interval + s.add.toInt32.toUInt32))
    (hc : s'.count ≠ 0) (hlast : s.singleSched = true ∨ s.count.toNat % 2 = 1) :
    s.ahead b tail = s.stepDue b ++ s'.ahead b tail := by
  have hcount := h.count
  have hsingle' := h.same.singleSched
  have hdue : s'.singleSched = true ∨ s'.count.toNat % 2 = 0 := by
    rw [hsingle']
    exact hlast.imp_right fun hodd => by omega
  rw [State.ahead, if_neg h.count_ne_zero, State.ahead, if_neg hc, stepDue_of_due hdue,
    State.segs, State.segs, h.left_next hc hlast, h.clock, h.interval, h.add, h.dirPin,
    h.mq, cons_append, train_succ]
  rfl

variable (b) in
/-- **ALL THAT A TIMER EVENT CAN DO** while a stepper is stepping. -/
inductive Fires (s : State) : Sched → State → Prop where
  | unstep {s' : State} (hsingle : s.singleSched = false)
      (heven : s.count.toNat % 2 = 0) (hc : s'.count ≠ 0)
      (h : Advances b s s' (s.clock b) s.interval) : Fires s .reschedule s'
  | next {s' : State} (hlast : s.singleSched = true ∨ s.count.toNat % 2 = 1) (hc : s'.count ≠ 0)
      (h : Advances b s s' (s.clock b + s.interval)
        (s.interval + s.add.toInt32.toUInt32)) : Fires s .reschedule s'
  | load {s' : State} {m : Move} {mq : List Move} (hone : s.count.toNat = 1)
      (hmq : s.mq = m :: mq) (h : Loads b s m mq s') : Fires s .reschedule s'
  | finish {s' : State} (hone : s.count.toNat = 1) (hmq : s.mq = [])
      (h : Advances b s s' (s.clock b) s.interval) : Fires s .done s'

/-- The end of a move: neither the step pin nor the time of an unstep event
    matters to what is loaded. -/
theorem load_fires {turned waketime : UInt32} {pin pin' : Bool} {sched : Sched}
    (hs : s.Valid b) (hone : s.count.toNat = 1) (hwake : s.path b ≠ .full → waketime = s.waketime)
    (h : loadNext b turned { s with stepPin := pin, waketime := waketime } = .ok (sched, s')) :
    Fires b s sched { s' with stepPin := pin' } := by
  have hclock : State.clock b { s with stepPin := pin, waketime := waketime } = s.clock b := by
    by_cases hp : s.path b = .full
    · rw [clock_full hp]
      exact clock_full hp
    · rw [clock_of_ne_full hp, ← hwake hp]
      exact clock_of_ne_full hp
  cases hmq : s.mq with
  | nil =>
    rw [loadNext] at h
    dsimp only at h
    rw [hmq] at h
    cases h
    refine .finish hone hmq ⟨⟨rfl, rfl, rfl, rfl⟩, ⟨rfl, rfl⟩, ?_, rfl, rfl, rfl, ?_, rfl, ?_⟩
    · exact hmq.symm
    · exact hclock
    · exact hone.symm
  | cons m mq =>
    have hconf : State.Configured b
        { s with stepPin := pin, waketime := waketime } :=
      { hs with }
    obtain ⟨hsched, hload⟩ := loadNext_cons hconf hmq h
    cases hsched
    refine .load hone hmq { hload with same := { hload.same with }, clock := ?_ }
    rw [← hclock]
    exact hload.clock

/-- The counter of `stepper_event_avr` fits its low half. -/
theorem toUInt32_pred_lowHalf {c : UInt32} (hlow : c.toNat < 2 ^ 16)
    (hc : c ≠ 0) : (c.toUInt16 - 1).toUInt32 = c - 1 := by
  have hcount := toNat_sub_one hc
  apply UInt32.toNat_inj.mp
  rw [UInt16.toNat_toUInt32, UInt16.toNat_sub, UInt32.toNat_toUInt16, UInt16.toNat_one]
  omega

variable (b) in
/-- **ALL THAT THE TIMER FUNCTIONS CAN DO**: the second event of a step, the one that schedules
    the next step, and the last of the move.  Only `stepper_event_avr` toggles the pin `twice`. -/
inductive Counts (reads : Reads) (s : State) : Exec (Sched × State) → Prop where
  | unstep (hp : s.path b = .full) (hsingle : s.singleSched = false)
      (heven : s.count.toNat % 2 = 0) :
      Counts reads s (.ok (.reschedule, { s with
        stepPin := !s.stepPin
        count := s.count - 1
        waketime := reads.event + s.stepPulseTicks }))
  | next {twice : Bool} {waketime nextStepTime : UInt32} (htwice : twice = decide (s.path b = .avr))
      (hlast : s.singleSched = true ∨ s.count.toNat % 2 = 1) (hc : s.count - 1 ≠ 0)
      (hfull : s.path b = .full → nextStepTime = s.nextStepTime + s.interval ∧
        waketime = if timerIsBefore nextStepTime (reads.event + s.stepPulseTicks)
          then reads.event + s.stepPulseTicks else nextStepTime)
      (hfast : s.path b ≠ .full → waketime = s.waketime + s.interval) :
      Counts reads s (.ok (.reschedule, { s with
        stepPin := bif twice then s.stepPin else !s.stepPin
        count := s.count - 1
        interval := s.interval + s.add.toInt32.toUInt32
        waketime := waketime
        nextStepTime := nextStepTime }))
  | last {twice : Bool} {waketime : UInt32} {r : Exec (Sched × State)}
      (htwice : twice = decide (s.path b = .avr)) (hone : s.count.toNat = 1)
      (hfull : s.path b = .full → waketime = reads.event + s.stepPulseTicks)
      (hfast : s.path b ≠ .full → waketime = s.waketime)
      (hr : (loadNext b reads.turned
        { s with stepPin := !s.stepPin, waketime := waketime }).map (fun r =>
          (r.1, { r.2 with stepPin := bif twice then !r.2.stepPin else r.2.stepPin })) = r) :
      Counts reads s r

variable {reads : Reads} {sched : Sched}

theorem event_counts (reads : Reads) (hs : s.Valid b) (hc : s.count ≠ 0) :
    Counts b reads s (s.event b reads) := by
  have hcount := toNat_sub_one hc
  have hone : s.count - 1 = 0 → s.count.toNat = 1 := by
    intro hzero
    rw [hzero] at hcount
    exact hcount.symm
  rw [State.event]
  cases hp : s.path b with
  | edge =>
    have hne : s.path b ≠ .full := by
      rw [hp]
      exact nofun
    have htwice : false = decide (s.path b = .avr) := by
      rw [hp]
      rfl
    dsimp only
    rw [eventEdge]
    split
    · rename_i hnext
      exact .next htwice (.inl (hs.single hne)) hnext (fun h => absurd h hne) fun _ => rfl
    · rename_i hlast
      exact .last htwice (hone (not_not.mp hlast)) (fun h => absurd h hne) (fun _ => rfl)
        (congrFun Except.map_id _)
  | avr =>
    have hne : s.path b ≠ .full := by
      rw [hp]
      exact nofun
    have htwice : true = decide (s.path b = .avr) := by
      rw [hp]
      rfl
    -- the high half of the counter is zero, so the low half is all of it
    have hlow := hs.avrCount hp
    have hhalf := toUInt32_pred_lowHalf hlow hc
    dsimp only
    rw [eventAvr]
    split
    · rename_i hnext
      have hcount' : (s.count &&& 0xffff0000) ||| (s.count.toUInt16 - 1).toUInt32
          = s.count - 1 := (or_lowHalf hlow _).trans hhalf
      have hadd : (if s.haveAdd = true then s.interval + s.add.toInt32.toUInt32
          else s.interval) = s.interval + s.add.toInt32.toUInt32 := by
        split
        · rfl
        · -- without `SF_HAVE_ADD` there is nothing to add
          rename_i hadd
          rw [hs.avrAdd hp, decide_eq_true_iff, not_not] at hadd
          rw [hadd]
          exact (UInt32.add_zero _).symm
      show Counts b reads s (.ok (.reschedule, { s with
        stepPin := !!s.stepPin
        count := (s.count &&& 0xffff0000) ||| (s.count.toUInt16 - 1).toUInt32
        interval := if s.haveAdd then s.interval + s.add.toInt32.toUInt32 else s.interval
        waketime := s.waketime + s.interval }))
      rw [hcount', hadd, Bool.not_not]
      refine .next htwice (.inl (hs.single hne)) ?_ (fun h => absurd h hne) fun _ => rfl
      rw [← hhalf]
      exact fun hzero => hnext (UInt16.toUInt32_inj.mp hzero)
    · rename_i hlast
      have hzero : s.count.toUInt16 - 1 = 0 := not_not.mp hlast
      rw [hzero] at hhalf
      exact .last htwice (hone hhalf.symm) (fun h => absurd h hne) (fun _ => rfl) rfl
  | full =>
    have htwice : false = decide (s.path b = .avr) := by
      rw [hp]
      rfl
    dsimp only
    rw [eventFull]
    split
    · rename_i hunstep
      have hodd : (s.count - 1).toNat % 2 = 1 := (and_one_ne_zero _).mp hunstep.1
      exact .unstep hp (Bool.eq_false_iff.mpr hunstep.2) (by omega)
    · rename_i hnot
      have hlast : s.singleSched = true ∨ s.count.toNat % 2 = 1 := by
        by_cases hsingle : s.singleSched = true
        · exact .inl hsingle
        · refine .inr ?_
          by_contra heven
          refine hnot ⟨(and_one_ne_zero _).mpr ?_, hsingle⟩
          show (s.count - 1).toNat % 2 = 1
          omega
      split
      · rename_i hnext
        exact .next htwice hlast hnext (fun _ => ⟨rfl, rfl⟩) fun h => absurd hp h
      · rename_i hzero
        exact .last htwice (hone (not_not.mp hzero)) (fun _ => rfl)
          (fun h => absurd hp h) (congrFun Except.map_id _)

/-- Each timer function does one of these things. -/
theorem event_fires (hs : s.Valid b) (hc : s.count ≠ 0)
    (h : s.event b reads = .ok (sched, s')) : Fires b s sched s' := by
  have hcount := toNat_sub_one hc
  have hcounts := event_counts reads hs hc
  rw [h] at hcounts
  generalize hr : (Except.ok (sched, s') : Exec _) = r at hcounts
  cases hcounts with
  | unstep hp hsingle heven =>
    cases hr
    refine .unstep hsingle heven ?_
      ⟨⟨rfl, rfl, rfl, rfl⟩, ⟨rfl, rfl⟩, rfl, rfl, rfl, rfl, ?_, rfl, hcount⟩
    · intro hzero
      rw [show s.count - 1 = 0 from hzero, UInt32.toNat_zero] at hcount
      omega
    · rw [clock_full hp]
      exact clock_full hp
  | next htwice hlast hc' hfull hfast =>
    cases hr
    refine .next hlast hc' ⟨⟨rfl, rfl, rfl, rfl⟩, ⟨rfl, rfl⟩, rfl, rfl, rfl, rfl, ?_, rfl, hcount⟩
    by_cases hp : s.path b = .full
    · rw [clock_full hp, ← (hfull hp).1]
      exact clock_full hp
    · rw [clock_of_ne_full hp, ← hfast hp]
      exact clock_of_ne_full hp
  | last htwice hone hfull hfast hload =>
    obtain ⟨⟨sched₁, s₁⟩, hload, heq⟩ := Result.map_eq_ok (hload.trans hr.symm)
    cases heq
    exact load_fires hs hone hfast hload

theorem Fires.valid (h : Fires b s sched s') (hs : s.Valid b) : s'.Valid b := by
  cases h with
  | unstep _ _ hc h | next _ hc h => exact h.valid hs fun hzero => absurd hzero hc
  | load _ hmq h =>
    refine h.valid hs.toConfigured hs.reset ?_ ?_
    · rw [← hmq]
      exact hs.counts
    · rw [← hmq]
      exact hs.dir
  | finish _ hmq h => exact h.valid hs fun _ => hmq

theorem Fires.nextDir (h : Fires b s sched s') : s'.nextDir = s.nextDir := by
  cases h with
  | unstep _ _ _ h | next _ _ h | load _ _ h | finish _ _ h => exact h.dirs.2

/-- The timer stays in the scheduler's list while there are steps. -/
theorem Fires.reschedule_iff (h : Fires b s sched s') (hs : s.Valid b) :
    sched = .reschedule ↔ s'.count ≠ 0 := by
  cases h with
  | unstep _ _ hc h | next _ hc h => exact iff_of_true rfl hc
  | load _ hmq h => exact iff_of_true rfl (h.count_ne_zero (hs.head hmq))
  | finish hone _ h => exact iff_of_false nofun (not_not.mpr (h.count_eq_zero hone))

/-- At the end of a move only the queue is ahead. -/
theorem ahead_of_one (hone : s.count.toNat = 1) :
    s.ahead b tail = s.stepDue b ++ train (s.clock b) (queued s.dirPin s.mq ++ tail) := by
  have hc : s.count ≠ 0 := by
    intro hzero
    rw [hzero] at hone
    cases hone
  have hleft : s.left = 0 := by
    rw [State.left, hone]
    split <;> rfl
  rw [State.ahead, if_neg hc, State.segs, hleft, cons_append, train_zero]

/-- **A TIMER EVENT** does the step that is due, and no other. -/
theorem Fires.ahead (h : Fires b s sched s') (hs : s.Valid b) :
    s.ahead b tail = s.stepDue b ++ s'.ahead b tail := by
  cases h with
  | unstep hsingle heven hc h => exact h.ahead_unstep hs hc hsingle heven
  | next hlast hc h => exact h.ahead_next hc hlast
  | load hone hmq h => rw [ahead_of_one hone, h.ahead (hs.head hmq), hmq]
  | finish hone hmq h =>
    rw [ahead_of_one hone, hmq, State.ahead, if_pos (h.count_eq_zero hone), h.clock]
    rfl

/-- How many timer events the state stands for. -/
def State.work (s : State) : Nat :=
  s.count.toNat + (s.mq.map fun m => (s.eventsOf m.count).toNat).sum

theorem Same.eventsOf (h : Same s s') (n : UInt16) : s'.eventsOf n = s.eventsOf n := by
  rw [State.eventsOf, State.eventsOf, h.singleSched]

/-- **PROGRESS**: each timer event is one less to come. -/
theorem Fires.work (h : Fires b s sched s') : s'.work + 1 = s.work := by
  have hadvances : ∀ {clock interval}, Advances b s s' clock interval → s'.work + 1 = s.work := by
    intro clock interval h
    have hcount := h.count
    rw [State.work, State.work, h.mq]
    simp only [h.same.eventsOf]
    omega
  cases h with
  | unstep _ _ _ h | next _ _ h | finish _ _ h => exact hadvances h
  | load hone hmq h =>
    rw [State.work, State.work, h.mq, hmq, h.count, hone, map_cons, sum_cons]
    simp only [h.same.eventsOf]
    omega

/-! ## Messages -/

/-- A message's move, behind the queue. -/
theorem queued_move (interval add : UInt32) (count : UInt16) (lastDir nextDir : Bool) :
    queued lastDir [⟨interval, add.toUInt16.toInt16, count, lastDir ≠ nextDir⟩]
      = [⟨interval, count.toNat, add.toUInt16.toInt16.toInt32.toUInt32, nextDir⟩] := by
  rw [queued, queued]
  cases lastDir <;> cases nextDir <;> rfl

theorem queuedDir_move (interval : UInt32) (add : Int16) (count : UInt16) (lastDir nextDir : Bool) :
    queuedDir lastDir [⟨interval, add, count, lastDir ≠ nextDir⟩] = nextDir := by
  cases lastDir <;> cases nextDir <;> rfl

open Stepcompress (Msg segments)

/-- **A MOVE MESSAGE** moves its steps from the messages to the stepper. -/
theorem commandQueueStep_spec {interval count add : UInt32} {added : Bool}
    (msgs : List Msg) (hs : s.Valid b)
    (h : commandQueueStep b interval count add s = .ok (added, s')) :
    s'.Valid b ∧ s'.nextDir = s.nextDir ∧ s'.count ≠ 0 ∧ added = decide (s.count = 0) ∧
      s'.ahead b (segments s.nextDir msgs)
        = s.ahead b (segments s.nextDir (.queueStep interval count add :: msgs)) := by
  have hsegs := queued_move interval add count.toUInt16 s.lastDir s.nextDir
  have hlast := queuedDir_move interval add.toUInt16.toInt16 count.toUInt16 s.lastDir s.nextDir
  rw [commandQueueStep] at h
  dsimp only at h
  split at h
  · cases h
  · rename_i hm
    split at h
    · -- the stepper is stepping: the move waits behind the others
      rename_i hc
      cases h
      refine ⟨{ hs with idle := ?_, counts := ?_, dir := ?_ }, rfl, hc,
        (decide_eq_false hc).symm, ?_⟩
      · exact fun hzero => absurd hzero hc
      · exact forall_mem_append.mpr ⟨hs.counts, forall_mem_singleton.mpr hm⟩
      · show queuedDir s.dirPin (s.mq ++ _) = s.nextDir
        rw [queuedDir_append, hs.dir, hlast]
      · rw [State.ahead, if_neg hc, State.ahead, if_neg hc]
        show s.stepDue b ++ train (s.clock b) (_ :: queued s.dirPin (s.mq ++ _) ++ _) = _
        rw [queued_append, hs.dir, hsegs, segments, State.segs]
        simp only [cons_append, append_assoc, nil_append]
        rfl
    · rename_i hc
      have hzero : s.count = 0 := not_not.mp hc
      rw [if_neg (Bool.eq_false_iff.mp hs.reset)] at h
      -- the stepper is idle: the move is loaded at once
      obtain ⟨⟨sched, s₁⟩, hload, hr⟩ := Result.map_eq_ok h
      cases hr
      have hdir := hs.dir
      rw [hs.idle hzero] at hload hdir
      have hconf : State.Configured b { s with
          lastDir := s.nextDir
          mq := [⟨interval, add.toUInt16.toInt16, count.toUInt16,
            s.lastDir ≠ s.nextDir⟩] } := { hs with }
      have hdirPin : s.dirPin = s.lastDir := hdir
      obtain ⟨-, hloads⟩ := loadNext_cons hconf rfl hload
      have hne := hloads.count_ne_zero hm
      refine ⟨hloads.valid hconf hs.reset (forall_mem_singleton.mpr hm) ?_,
        hloads.dirs.2, hne, (decide_eq_true hzero).symm, ?_⟩
      · show queuedDir s.dirPin _ = s.nextDir
        rw [hdirPin, hlast]
      · rw [hloads.ahead hm, State.ahead, if_pos hzero]
        show train (s.clock b) (queued s.dirPin _ ++ _) = _
        rw [hdirPin, hsegs, segments]
        rfl

/-! ## Runs -/

variable {mcu mcu' : Mcu} {events : List Event}

variable (b) in
/-- A valid stepper whose timer is in the scheduler's list while it steps. -/
structure Mcu.Valid (mcu : Mcu) : Prop where
  state : mcu.s.Valid b
  armed : mcu.armed = decide (mcu.s.count ≠ 0)

theorem Mcu.Valid.unarmed_iff (h : mcu.Valid b) : mcu.armed = false ↔ mcu.s.count = 0 := by
  rw [h.armed, decide_eq_false_iff_not, not_not]

variable (b) in
/-- All steps of a run: those done, those the state stands for, and those of
    the messages `later`. -/
def Mcu.allSteps (mcu : Mcu) (later : List Msg) : List (UInt32 × Bool) :=
  mcu.steps ++ mcu.s.ahead b (segments mcu.s.nextDir later)

/-- **ONE EVENT** keeps all steps. -/
theorem Mcu.event_spec {ev : Event} (later : List Msg) (hm : mcu.Valid b)
    (h : mcu.event b ev = .ok mcu') :
    mcu'.Valid b ∧ mcu'.allSteps b later = mcu.allSteps b (delivered [ev] ++ later) := by
  cases ev with
  | message msg =>
    cases msg with
    | queueStep interval count add =>
      obtain ⟨⟨added, s'⟩, hcmd, hr⟩ := Result.map_eq_ok h
      cases hr
      obtain ⟨hs', hnext, hc, hadded, hahead⟩ := commandQueueStep_spec later hm.state hcmd
      refine ⟨⟨hs', ?_⟩, ?_⟩
      · show (mcu.armed || added) = decide (s'.count ≠ 0)
        rw [hm.armed, hadded, decide_eq_true hc]
        by_cases hzero : mcu.s.count = 0
        · rw [decide_eq_true hzero, Bool.or_true]
        · rw [decide_eq_true hzero, Bool.true_or]
      · show mcu.steps ++ s'.ahead b (segments s'.nextDir later) = _
        rw [hnext, hahead]
        rfl
    | setNextStepDir dir =>
      cases h
      exact ⟨⟨{ hm.state with }, hm.armed⟩, rfl⟩
  | timer reads =>
    rw [Mcu.event] at h
    split at h
    · rename_i harmed
      obtain ⟨⟨sched, s'⟩, hev, hr⟩ := Result.map_eq_ok h
      cases hr
      rw [hm.armed, decide_eq_true_iff] at harmed
      have hfires := event_fires hm.state harmed hev
      refine ⟨⟨hfires.valid hm.state, ?_⟩, ?_⟩
      · show decide (sched = .reschedule) = decide (s'.count ≠ 0)
        exact decide_eq_decide.mpr (hfires.reschedule_iff hm.state)
      · show (mcu.steps ++ mcu.s.stepDue b) ++ s'.ahead b _ = mcu.steps ++ mcu.s.ahead b _
        rw [hfires.ahead hm.state, append_assoc, hfires.nextDir]
        rfl
    · cases h
      exact ⟨hm, rfl⟩

theorem delivered_cons (ev : Event) (events : List Event) :
    delivered (ev :: events) = delivered [ev] ++ delivered events := by
  cases ev <;> rfl

theorem delivered_timers (readings : List Reads) : delivered (readings.map .timer) = [] := by
  induction readings with
  | nil => rfl
  | cons reads readings ih => exact ih

/-- **RUNS OF THE FIRMWARE**: the steps done are the first of the steps of the
    messages delivered. -/
theorem Mcu.run_spec (later : List Msg) (hm : mcu.Valid b) (h : mcu.run b events = .ok mcu') :
    mcu'.Valid b ∧ mcu'.allSteps b later = mcu.allSteps b (delivered events ++ later) := by
  induction events generalizing mcu with
  | nil =>
    cases h
    exact ⟨hm, rfl⟩
  | cons ev events ih =>
    rw [Mcu.run, foldlM_cons] at h
    obtain ⟨mcu₁, hev, hrest⟩ := Result.bind_eq_ok h
    obtain ⟨hm₁, heq⟩ := Mcu.event_spec _ hm hev
    obtain ⟨hm', heq'⟩ := ih hm₁ hrest
    refine ⟨hm', ?_⟩
    rw [heq', heq, delivered_cons ev events, append_assoc]

/-! ## Timer events alone -/

/-- A stepper that has nothing ahead is idle. -/
theorem count_of_work (hwork : s.work = 0) : s.count = 0 := by
  apply UInt32.toNat_inj.mp
  rw [State.work] at hwork
  rw [UInt32.toNat_zero]
  omega

theorem Mcu.timer_work {reads : Reads} (hm : mcu.Valid b)
    (h : mcu.event b (.timer reads) = .ok mcu') : mcu'.s.work = mcu.s.work - 1 := by
  rw [Mcu.event] at h
  split at h
  · rename_i harmed
    obtain ⟨⟨sched, s'⟩, hev, hr⟩ := Result.map_eq_ok h
    cases hr
    rw [hm.armed, decide_eq_true_iff] at harmed
    have hwork := (event_fires hm.state harmed hev).work
    show s'.work = _
    omega
  · rename_i harmed
    cases h
    rw [hm.armed, decide_eq_true_iff, not_not] at harmed
    rw [State.work, harmed, hm.state.idle harmed]
    rfl

/-- **AS MANY TIMER EVENTS** as the state stands for bring a stepper to rest. -/
theorem Mcu.run_timers_work {readings : List Reads} (hm : mcu.Valid b)
    (h : mcu.run b (readings.map .timer) = .ok mcu') :
    mcu'.s.work = mcu.s.work - readings.length := by
  induction readings generalizing mcu with
  | nil =>
    cases h
    rfl
  | cons reads readings ih =>
    rw [Mcu.run, map_cons, foldlM_cons] at h
    obtain ⟨mcu₁, hev, hrest⟩ := Result.bind_eq_ok h
    have hwork := Mcu.timer_work hm hev
    rw [ih (Mcu.event_spec [] hm hev).1 hrest, hwork, length_cons]
    omega

theorem loadFull_of_not_before (turned : UInt32)
    (h : timerIsBefore (s.nextStepTime + m.interval) s.waketime = false) :
    ∃ s', loadFull b turned m s = .ok s' := by
  rw [loadFull]
  dsimp only
  rw [h, if_neg]
  · exact ⟨_, rfl⟩
  · rintro ⟨⟨-, hbefore⟩, -⟩
    cases hbefore

theorem loadNext_of_not_before {turned : UInt32} (hs : s.Configured b)
    (h : s.path b = .full → ∀ m mq, s.mq = m :: mq →
      timerIsBefore (s.nextStepTime + m.interval) s.waketime = false) :
    ∃ r, loadNext b turned s = .ok r := by
  rw [loadNext]
  split
  · exact ⟨_, rfl⟩
  · rename_i m mq hmq
    dsimp only
    rw [hs.branches.1, hs.branches.2]
    cases hp : s.path b with
    | edge | avr => exact ⟨_, rfl⟩
    | full =>
      have hearly := h hp m mq hmq
      obtain ⟨s', hs'⟩ := loadFull_of_not_before turned (b := b) (m := m)
        (s := { s with
          mq := mq
          position := (if m.dir then -s.position else s.position) + m.count.toUInt32
          add := m.add
          interval := m.interval + m.add.toInt32.toUInt32 })
        hearly
      refine ⟨(.reschedule, s'), ?_⟩
      rw [hs']
      rfl

end Stepper
