import Pick.RunProofs

/-! # Triggers (`src/trsync.c`, `src/endstop.c`)

A `trsync` object calls the signals registered with it when it is triggered:
by an endstop, a sensor, a command or its own timeout.  Whoever comes first
wins: between two `trsync_start` the signals are called once, at the first
trigger and with its reason, which is kept.

A step of the model returns what it does in order: triggers tried, signals
called, signals registered, samples taken. -/

namespace Trsync

open Function List

/-! ## Model -/

/-- `struct trsync`.  A timer is `some` of its waketime while it is scheduled;
    the signals are given by number. -/
structure Object where
  reportTime : Option UInt32
  expireTime : Option UInt32
  reportTicks : UInt32
  signals : List ℕ
  canTrigger : Bool
  report : Bool
  triggerReason : UInt8
  expireReason : UInt8

/-- After a reset. -/
def Object.zero : Object := ⟨none, none, 0, [], false, false, 0, 0⟩

/-- The two functions of an endstop's timer. -/
inductive TimerFunc where
  | event
  | oversample
  deriving DecidableEq

/-- `struct endstop`. -/
structure Endstop where
  scheduled : Bool
  func : TimerFunc
  waketime : UInt32
  restTime : UInt32
  sampleTime : UInt32
  nextwake : UInt32
  ts : Option ℕ
  pinHigh : Bool
  homing : Bool
  sampleCount : UInt8
  triggerCount : UInt8
  triggerReason : UInt8

/-- After a reset. -/
def Endstop.zero : Endstop := ⟨false, .event, 0, 0, 0, 0, none, false, false, 0, 0, 0⟩

/-- Who calls `trsync_do_trigger`. -/
inductive Source where
  | endstop (e : ℕ)
  | sensor
  | command
  | expire
  deriving DecidableEq

/-- What is done, in order. -/
inductive Entry where
  | attempt (ts : ℕ) (reason : UInt8) (source : Source)
  | call (ts signal : ℕ) (reason : UInt8)
  | added (ts signal : ℕ)
  | homed (e : ℕ) (sampleCount : UInt8) (sampleTime : UInt32)
  | sample (e : ℕ) (clock : UInt32) (isMatch : Bool)
  | state (ts : ℕ) (canTrigger : Bool) (reason : UInt8)
  deriving DecidableEq

/-- All objects by their oid; `active` are the signals whose `func` is set. -/
structure State where
  objects : ℕ → Object
  endstops : ℕ → Endstop
  active : ℕ → Bool

/-- After a reset. -/
def State.initial : State := ⟨fun _ => .zero, fun _ => .zero, fun _ => false⟩

/-- A new state of an object. -/
def State.setObject (s : State) (ts : ℕ) (o : Object) : State :=
  { s with objects := update s.objects ts o }

/-- A new state of an endstop. -/
def State.setEndstop (s : State) (e : ℕ) (endstop : Endstop) : State :=
  { s with endstops := update s.endstops e endstop }

/-- The signals of a list are taken off it, which clears their `func`. -/
def State.release (s : State) (signals : List ℕ) : State :=
  { s with active := fun signal => s.active signal && !signals.contains signal }

/-- `trsync_do_trigger`. -/
def State.doTrigger (s : State) (ts : ℕ) (reason : UInt8) (source : Source) : State × List Entry :=
  let o := s.objects ts
  if o.canTrigger then
    ((s.release o.signals).setObject ts
      { o with
        triggerReason := reason
        canTrigger := false
        report := true
        signals := [] },
      .attempt ts reason source :: o.signals.map (.call ts · reason))
  else (s, [.attempt ts reason source])

/-- The reason to shut down. -/
inductive Shutdown where
  /-- `Can't add signal that is already active`. -/
  | signalActive
  deriving DecidableEq

/-- `trsync_add_signal`. -/
def State.addSignal (s : State) (ts signal : ℕ) : Except Shutdown State :=
  if s.active signal then .error .signalActive
  else
    let o := s.objects ts
    .ok ({ s with active := update s.active signal true }.setObject ts
      { o with signals := signal :: o.signals })

/-- `command_trsync_start`, with the `trsync_clear` in it. -/
def State.start (s : State) (ts : ℕ) (reportClock reportTicks : UInt32)
    (expireReason : UInt8) : State :=
  (s.release (s.objects ts).signals).setObject ts
    { reportTime := if reportTicks = 0 then none else some reportClock
      expireTime := none
      reportTicks := reportTicks
      signals := []
      canTrigger := true
      report := false
      triggerReason := 0
      expireReason := expireReason }

/-- `command_trsync_set_timeout`. -/
def State.setTimeout (s : State) (ts : ℕ) (clock : UInt32) : State :=
  let o := s.objects ts
  if o.canTrigger then s.setObject ts { o with expireTime := some clock } else s

/-- `command_trsync_trigger`. -/
def State.trigger (s : State) (ts : ℕ) (reason : UInt8) : State × List Entry :=
  let (s, out) := s.doTrigger ts reason .command
  let o := s.objects ts
  (s.setObject ts
    { o with
      reportTime := none
      expireTime := none
      canTrigger := false
      report := false },
    out ++ [.state ts false o.triggerReason])

/-- `trsync_expire_event`. -/
def State.expireEvent (s : State) (ts : ℕ) : State × List Entry :=
  let o := s.objects ts
  if o.expireTime = none then (s, [])
  else
    (s.setObject ts { o with expireTime := none }).doTrigger ts o.expireReason .expire

/-- `trsync_report_event`. -/
def State.reportEvent (s : State) (ts : ℕ) : State :=
  let o := s.objects ts
  match o.reportTime with
  | none => s
  | some waketime =>
    s.setObject ts { o with report := true, reportTime := some (waketime + o.reportTicks) }

/-- `trsync_task`, for one object. -/
def State.task (s : State) (ts : ℕ) : State × List Entry :=
  let o := s.objects ts
  if o.report then
    (s.setObject ts { o with report := false }, [.state ts o.canTrigger o.triggerReason])
  else (s, [])

/-- `command_endstop_home`. -/
def State.home (s : State) (e : ℕ) (clock sampleTicks : UInt32)
    (sampleCount : UInt8) (restTicks : UInt32) (pinValue : Bool) (ts : ℕ)
    (triggerReason : UInt8) : State × List Entry :=
  let endstop := { s.endstops e with
    scheduled := false
    waketime := clock
    sampleTime := sampleTicks
    sampleCount := sampleCount }
  let endstop :=
    if sampleCount = 0 then
      { endstop with ts := none, pinHigh := false, homing := false }
    else
      { endstop with
        restTime := restTicks
        func := .event
        triggerCount := sampleCount
        pinHigh := pinValue
        homing := true
        ts := some ts
        triggerReason := triggerReason
        scheduled := true }
  (s.setEndstop e endstop, [.homed e sampleCount sampleTicks])

/-- `endstop_oversample_event`. -/
def State.oversampleEvent (s : State) (e : ℕ) (val : Bool) : State × List Entry :=
  let endstop := s.endstops e
  let taken := Entry.sample e endstop.waketime (val == endstop.pinHigh)
  if val ≠ endstop.pinHigh then
    (s.setEndstop e
      { endstop with
        func := .event
        waketime := endstop.nextwake
        triggerCount := endstop.sampleCount },
      [taken])
  else
    let count := endstop.triggerCount - 1
    if count = 0 then
      let s := s.setEndstop e { endstop with scheduled := false }
      match endstop.ts with
      | none => (s, [taken])
      | some ts =>
        let (s, out) := s.doTrigger ts endstop.triggerReason (.endstop e)
        (s, taken :: out)
    else
      (s.setEndstop e
        { endstop with
          triggerCount := count
          waketime := endstop.waketime + endstop.sampleTime },
        [taken])

/-- `endstop_event`; the pin is read a second time at once if it matches. -/
def State.endstopEvent (s : State) (e : ℕ) (val again : Bool) : State × List Entry :=
  let endstop := s.endstops e
  let taken := Entry.sample e endstop.waketime (val == endstop.pinHigh)
  let nextwake := endstop.waketime + endstop.restTime
  if val ≠ endstop.pinHigh then
    (s.setEndstop e { endstop with waketime := nextwake }, [taken])
  else
    let (s, out) := (s.setEndstop e
      { endstop with nextwake := nextwake, func := .oversample }).oversampleEvent e again
    (s, taken :: out)

/-- What can happen. -/
inductive Event where
  | start (ts : ℕ) (reportClock reportTicks : UInt32) (expireReason : UInt8)
  | setTimeout (ts : ℕ) (clock : UInt32)
  | trigger (ts : ℕ) (reason : UInt8)
  | addSignal (ts signal : ℕ)
  | expire (ts : ℕ)
  | report (ts : ℕ)
  | task (ts : ℕ)
  | sensor (ts : ℕ) (reason : UInt8)
  | home (e : ℕ) (clock sampleTicks : UInt32) (sampleCount : UInt8)
      (restTicks : UInt32) (pinValue : Bool) (ts : ℕ) (triggerReason : UInt8)
  | endstop (e : ℕ) (val again : Bool)

/-- One event. -/
def State.step (s : State) : Event → Except Shutdown (State × List Entry)
  | .start ts reportClock reportTicks expireReason =>
    .ok (s.start ts reportClock reportTicks expireReason, [])
  | .setTimeout ts clock => .ok (s.setTimeout ts clock, [])
  | .trigger ts reason => .ok (s.trigger ts reason)
  | .addSignal ts signal => (s.addSignal ts signal).map fun s => (s, [.added ts signal])
  | .expire ts => .ok (s.expireEvent ts)
  | .report ts => .ok (s.reportEvent ts, [])
  | .task ts => .ok (s.task ts)
  | .sensor ts reason => .ok (s.doTrigger ts reason .sensor)
  | .home e clock sampleTicks sampleCount restTicks pinValue ts triggerReason =>
    .ok (s.home e clock sampleTicks sampleCount restTicks pinValue ts triggerReason)
  | .endstop e val again =>
    -- the timer of an endstop that is not scheduled does not fire
    if (s.endstops e).scheduled then
      match (s.endstops e).func with
      | .event => .ok (s.endstopEvent e val again)
      | .oversample => .ok (s.oversampleEvent e val)
    else .ok (s, [])

/-- A run of events. -/
def State.run (s : State) : List Event → Except Shutdown (State × List Entry)
  | [] => .ok (s, [])
  | event :: events => do
      let (s₁, out) ← s.step event
      let (s₂, rest) ← s₁.run events
      pure (s₂, out ++ rest)

/-! ## What is done to one object -/

/-- A try to trigger the object. -/
def Entry.IsAttempt (ts : ℕ) : Entry → Prop
  | .attempt ts' _ _ => ts' = ts
  | _ => False

/-- A call of a signal for the object. -/
def Entry.IsCall (ts : ℕ) : Entry → Prop
  | .call ts' _ _ => ts' = ts
  | _ => False

/-- The signal that is registered with the object. -/
def Entry.added? (ts : ℕ) : Entry → Option ℕ
  | .added ts' signal => if ts' = ts then some signal else none
  | _ => none

/-- The signals registered with the object, in order. -/
def addedTo (ts : ℕ) (log : List Entry) : List ℕ := log.filterMap (Entry.added? ts)

/-- Nothing that has to do with the object's signals. -/
def Entry.Apart (ts : ℕ) (x : Entry) : Prop := ¬ x.IsAttempt ts ∧ ¬ x.IsCall ts ∧ x.added? ts = none

@[simp] theorem addedTo_append (ts : ℕ) (l₁ l₂ : List Entry) :
    addedTo ts (l₁ ++ l₂) = addedTo ts l₁ ++ addedTo ts l₂ :=
  filterMap_append

variable {ts ts' : ℕ} {before : List Entry} {event : Event}

theorem addedTo_of_apart {out : List Entry} (h : ∀ x ∈ out, x.Apart ts) : addedTo ts out = [] :=
  filterMap_eq_nil_iff.mpr fun x hx => (h x hx).2.2

/-- Two states of an object that do not differ in what a trigger uses. -/
structure Object.Same (o o' : Object) : Prop where
  canTrigger : o'.canTrigger = o.canTrigger
  signals : o'.signals = o.signals
  triggerReason : o'.triggerReason = o.triggerReason

theorem Object.Same.rfl {o : Object} : o.Same o := ⟨Eq.refl _, Eq.refl _, Eq.refl _⟩

/-- **ALL THAT A STEP CAN DO** to an object that it does not start: nothing, a
    trigger that calls the signals, one that comes too late, or a registration. -/
inductive Acts (ts : ℕ) (o o' : Object) : List Entry → Prop where
  | quiet {out : List Entry} (hout : ∀ x ∈ out, x.Apart ts) (hsame : o.Same o') : Acts ts o o' out
  | fired {before after : List Entry} {source : Source}
      (hbefore : ∀ x ∈ before, x.Apart ts) (hafter : ∀ x ∈ after, x.Apart ts)
      (hcan : o.canTrigger = true) (hcan' : o'.canTrigger = false)
      (hsignals : o'.signals = []) :
      Acts ts o o' (before ++ .attempt ts o'.triggerReason source ::
        (o.signals.map (.call ts · o'.triggerReason) ++ after))
  | late {before after : List Entry} {reason : UInt8} {source : Source}
      (hbefore : ∀ x ∈ before, x.Apart ts) (hafter : ∀ x ∈ after, x.Apart ts)
      (hcan : o.canTrigger = false) (hsame : o.Same o') :
      Acts ts o o' (before ++ .attempt ts reason source :: after)
  | added {signal : ℕ} (hcan : o'.canTrigger = o.canTrigger)
      (hsignals : o'.signals = signal :: o.signals)
      (hreason : o'.triggerReason = o.triggerReason) :
      Acts ts o o' [.added ts signal]

variable {s s' : State} {ts : ℕ} {o o' o'' : Object} {out : List Entry}

theorem State.setObject_self (s : State) (ts : ℕ) (o : Object) :
    (s.setObject ts o).objects ts = o := by
  simp [State.setObject]

theorem State.setObject_of_ne (s : State) (o : Object) (h : ts ≠ ts') :
    (s.setObject ts' o).objects ts = s.objects ts := by
  simp [State.setObject, h]

/-- A write that changes nothing a trigger uses is no act. -/
theorem State.setObject_same (s : State) (ts ts' : ℕ) {o : Object}
    (h : (s.objects ts').Same o) : (s.objects ts).Same ((s.setObject ts' o).objects ts) := by
  by_cases hts : ts = ts'
  · subst hts
    rw [State.setObject_self]
    exact h
  · rw [State.setObject_of_ne s o hts]
    exact .rfl

theorem Object.Same.trans (h : o.Same o') (h' : o'.Same o'') : o.Same o'' :=
  ⟨h'.canTrigger.trans h.canTrigger, h'.signals.trans h.signals,
    h'.triggerReason.trans h.triggerReason⟩

/-- An object may change in what a trigger does not use before an act. -/
theorem Acts.of_same (hsame : o.Same o') (h : Acts ts o' o'' out) : Acts ts o o'' out := by
  cases h with
  | quiet hout hsame' => exact .quiet hout (hsame.trans hsame')
  | fired hbefore hafter hcan hcan' hsignals =>
    rw [hsame.signals]
    exact .fired hbefore hafter (hsame.canTrigger ▸ hcan) hcan' hsignals
  | late hbefore hafter hcan hsame' =>
    exact .late hbefore hafter (hsame.canTrigger ▸ hcan) (hsame.trans hsame')
  | added hcan hsignals hreason =>
    exact .added (hcan.trans hsame.canTrigger) (by rw [hsignals, hsame.signals])
      (hreason.trans hsame.triggerReason)

/-- And after it. -/
theorem Acts.same_right (h : Acts ts o o' out) (hsame : o'.Same o'') : Acts ts o o'' out := by
  cases h with
  | quiet hout hsame' => exact .quiet hout (hsame'.trans hsame)
  | fired hbefore hafter hcan hcan' hsignals =>
    rw [← hsame.triggerReason]
    exact .fired hbefore hafter hcan (hsame.canTrigger.trans hcan') (hsame.signals.trans hsignals)
  | late hbefore hafter hcan hsame' => exact .late hbefore hafter hcan (hsame'.trans hsame)
  | added hcan hsignals hreason =>
    exact .added (hsame.canTrigger.trans hcan) (hsame.signals.trans hsignals)
      (hsame.triggerReason.trans hreason)

theorem call_apart (hne : ts' ≠ ts) (signals : List ℕ) (reason : UInt8) :
    ∀ x ∈ signals.map (Entry.call ts' · reason), x.Apart ts :=
  forall_mem_map.mpr fun _ _ => ⟨id, hne, rfl⟩

theorem attempt_apart (hne : ts' ≠ ts) (reason : UInt8)
    (source : Source) : (Entry.attempt ts' reason source).Apart ts :=
  ⟨hne, id, rfl⟩

/-- A trigger between two things that have nothing to do with the object. -/
theorem acts_doTrigger (s : State) (ts ts' : ℕ) (reason : UInt8) (source : Source)
    {after : List Entry} (hbefore : ∀ x ∈ before, x.Apart ts) (hafter : ∀ x ∈ after, x.Apart ts) :
    Acts ts (s.objects ts) ((s.doTrigger ts' reason source).1.objects ts)
      (before ++ ((s.doTrigger ts' reason source).2 ++ after)) := by
  rw [State.doTrigger]
  by_cases hcan : (s.objects ts').canTrigger = true
  · rw [if_pos hcan]
    by_cases hts : ts = ts'
    · subst hts
      rw [State.setObject_self]
      exact .fired hbefore hafter hcan rfl rfl
    · rw [State.setObject_of_ne _ _ hts]
      refine .quiet ?_ .rfl
      have hne : ts' ≠ ts := Ne.symm hts
      rw [forall_mem_append, forall_mem_append, forall_mem_cons]
      exact ⟨hbefore, ⟨attempt_apart hne reason source, call_apart hne _ reason⟩, hafter⟩
  · rw [if_neg hcan]
    rw [Bool.not_eq_true] at hcan
    by_cases hts : ts = ts'
    · subst hts
      exact .late hbefore hafter hcan .rfl
    · refine .quiet ?_ .rfl
      rw [forall_mem_append, forall_mem_append, forall_mem_singleton]
      exact ⟨hbefore, attempt_apart (Ne.symm hts) reason source, hafter⟩

/-! ### Events -/

/-- The event starts the object. -/
def Event.Starts (ts : ℕ) : Event → Prop
  | .start ts' _ _ _ => ts' = ts
  | _ => False

theorem acts_trigger (s : State) (ts ts' : ℕ) (reason : UInt8) :
    Acts ts (s.objects ts) ((s.trigger ts' reason).1.objects ts) (s.trigger ts' reason).2 := by
  have hstate : ∀ x ∈ [Entry.state ts' false
      ((s.doTrigger ts' reason .command).1.objects ts').triggerReason], x.Apart ts :=
    forall_mem_singleton.mpr ⟨id, id, rfl⟩
  have hacts := acts_doTrigger s ts ts' reason .command (forall_mem_nil _) hstate
  rw [State.trigger]
  by_cases hts : ts = ts'
  · subst hts
    -- the object cannot be triggered any more in any case
    have hcan : ((s.doTrigger ts reason .command).1.objects ts).canTrigger = false := by
      rw [State.doTrigger]
      by_cases h : (s.objects ts).canTrigger = true
      · rw [if_pos h, State.setObject_self]
      · rw [if_neg h]
        exact Bool.not_eq_true _ ▸ h
    rw [State.setObject_self]
    exact hacts.same_right ⟨hcan.symm, rfl, rfl⟩
  · rw [State.setObject_of_ne _ _ hts]
    exact hacts

theorem acts_expireEvent (s : State) (ts ts' : ℕ) :
    Acts ts (s.objects ts) ((s.expireEvent ts').1.objects ts) (s.expireEvent ts').2 := by
  rw [State.expireEvent]
  split
  · exact .quiet nofun .rfl
  · have hsame : (s.objects ts).Same
        ((s.setObject ts' { s.objects ts' with expireTime := none }).objects ts) :=
      s.setObject_same ts ts' ⟨rfl, rfl, rfl⟩
    have hacts := acts_doTrigger (s.setObject ts' { s.objects ts' with expireTime := none }) ts ts'
      (s.objects ts').expireReason .expire
      (forall_mem_nil _) (forall_mem_nil _)
    rw [nil_append, append_nil] at hacts
    exact hacts.of_same hsame

/-- The two parts of what a step returns. -/
theorem parts_of_ok {x : State × List Entry}
    (h : (Except.ok x : Except Shutdown (State × List Entry)) = .ok (s', out)) :
    s' = x.1 ∧ out = x.2 := by
  obtain rfl : x = (s', out) := Except.ok.inj h
  exact ⟨rfl, rfl⟩

/-- A sample of the endstop. -/
def Entry.IsSample (e : ℕ) (x : Entry) : Prop := ∃ clock isMatch, x = .sample e clock isMatch

/-- What the timer of an endstop does: it takes samples and sets the endstop, and at
    most triggers then. -/
inductive Sampled (e : ℕ) (s : State) : State → List Entry → Prop where
  | takes {out : List Entry} (endstop : Endstop) (hout : ∀ x ∈ out, x.IsSample e) :
      Sampled e s (s.setEndstop e endstop) out
  | triggers {before : List Entry} (endstop : Endstop) (ts : ℕ) (reason : UInt8)
      (hbefore : ∀ x ∈ before, x.IsSample e) :
      Sampled e s ((s.setEndstop e endstop).doTrigger ts reason (.endstop e)).1
        (before ++ ((s.setEndstop e endstop).doTrigger ts reason (.endstop e)).2)

/-- An oversample, behind what has been set and sampled before it in the same event. -/
theorem sampled_oversampleEvent {s₀ : State}
    (hset : ∀ endstop, s.setEndstop e endstop = s₀.setEndstop e endstop)
    (hbefore : ∀ x ∈ before, x.IsSample e) (val : Bool) :
    Sampled e s₀ (s.oversampleEvent e val).1 (before ++ (s.oversampleEvent e val).2) := by
  have hall : ∀ x ∈ before ++ [Entry.sample e (s.endstops e).waketime
      (val == (s.endstops e).pinHigh)], x.IsSample e :=
    forall_mem_append.mpr ⟨hbefore, forall_mem_singleton.mpr ⟨_, _, rfl⟩⟩
  rw [State.oversampleEvent]
  dsimp only
  simp only [hset]
  split
  · exact .takes _ hall
  · split
    · split
      · exact .takes _ hall
      · next ts _ =>
        have hsampled := Sampled.triggers (s := s₀) { s.endstops e with scheduled := false }
          ts (s.endstops e).triggerReason hall
        rwa [append_assoc] at hsampled
    · exact .takes _ hall

theorem sampled_endstop {val again : Bool}
    (h : s.step (.endstop e val again) = .ok (s', out)) : Sampled e s s' out := by
  rw [State.step] at h
  split at h
  · split at h
    · obtain ⟨rfl, rfl⟩ := parts_of_ok h
      have htaken : ∀ x ∈ [Entry.sample e (s.endstops e).waketime
          (val == (s.endstops e).pinHigh)], x.IsSample e :=
        forall_mem_singleton.mpr ⟨_, _, rfl⟩
      rw [State.endstopEvent]
      dsimp only
      split
      · exact .takes _ htaken
      · refine sampled_oversampleEvent (fun endstop => ?_) htaken again
        simp only [State.setEndstop, update_idem]
    · obtain ⟨rfl, rfl⟩ := parts_of_ok h
      exact sampled_oversampleEvent (fun _ => rfl) (forall_mem_nil _) val
  · cases h
    have hsampled := Sampled.takes (e := e) (s := s) (s.endstops e) (forall_mem_nil _)
    rwa [State.setEndstop, update_eq_self] at hsampled

theorem step_acts (hstart : ¬ event.Starts ts) (h : s.step event = .ok (s', out)) :
    Acts ts (s.objects ts) (s'.objects ts) out := by
  have hnil : ∀ x ∈ ([] : List Entry), x.Apart ts := nofun
  cases event with
  | start ts' reportClock reportTicks expireReason =>
    cases h
    have hne : ts ≠ ts' := fun heq => hstart heq.symm
    refine .quiet hnil ?_
    rw [State.start, State.setObject_of_ne _ _ hne]
    exact .rfl
  | setTimeout ts' clock =>
    cases h
    refine .quiet hnil ?_
    rw [State.setTimeout]
    split
    · exact s.setObject_same ts ts' ⟨rfl, rfl, rfl⟩
    · exact .rfl
  | trigger ts' reason =>
    obtain ⟨rfl, rfl⟩ := parts_of_ok h
    exact acts_trigger s ts ts' reason
  | addSignal ts' signal =>
    obtain ⟨s₁, hadd, heq⟩ := Result.map_eq_ok h
    cases heq
    rw [State.addSignal] at hadd
    split at hadd
    · cases hadd
    · cases hadd
      by_cases hts : ts = ts'
      · subst hts
        rw [State.setObject_self]
        exact .added rfl rfl rfl
      · rw [State.setObject_of_ne _ _ hts]
        refine .quiet (forall_mem_singleton.mpr ?_) .rfl
        exact ⟨id, id, if_neg (Ne.symm hts)⟩
  | expire ts' =>
    obtain ⟨rfl, rfl⟩ := parts_of_ok h
    exact acts_expireEvent s ts ts'
  | report ts' =>
    cases h
    refine .quiet hnil ?_
    rw [State.reportEvent]
    split
    · exact .rfl
    · exact s.setObject_same ts ts' ⟨rfl, rfl, rfl⟩
  | task ts' =>
    obtain ⟨rfl, rfl⟩ := parts_of_ok h
    rw [State.task]
    split
    · refine .quiet (forall_mem_singleton.mpr ?_) (s.setObject_same ts ts' ⟨rfl, rfl, rfl⟩)
      exact ⟨id, id, rfl⟩
    · exact .quiet hnil .rfl
  | sensor ts' reason =>
    obtain ⟨rfl, rfl⟩ := parts_of_ok h
    have hacts := acts_doTrigger s ts ts' reason .sensor hnil hnil
    rwa [nil_append, append_nil] at hacts
  | home e clock sampleTicks sampleCount restTicks pinValue ts' triggerReason =>
    cases h
    refine .quiet (forall_mem_singleton.mpr ?_) .rfl
    exact ⟨id, id, rfl⟩
  | endstop e val again =>
    have hapart : ∀ x : Entry, x.IsSample e → x.Apart ts := by
      rintro _ ⟨clock, isMatch, rfl⟩
      exact ⟨id, id, rfl⟩
    cases sampled_endstop h with
    | takes endstop hout => exact .quiet (fun x hx => hapart x (hout x hx)) .rfl
    | triggers endstop ts' reason hbefore =>
      have hacts := acts_doTrigger (s.setEndstop e endstop) ts ts' reason
        (.endstop e) (fun x hx => hapart x (hbefore x hx)) hnil
      rwa [append_nil] at hacts

/-! ## No signal is in two places -/

/-- A signal in a list has its `func` set and is in that list only, once. -/
structure State.Linked (s : State) : Prop where
  active : ∀ ts, ∀ signal ∈ (s.objects ts).signals, s.active signal = true
  nodup : ∀ ts, (s.objects ts).signals.Nodup
  apart : ∀ ts ts' signal, signal ∈ (s.objects ts).signals →
    signal ∈ (s.objects ts').signals → ts = ts'

theorem linked_initial : State.initial.Linked where
  active _ _ h := nomatch h
  nodup _ := nodup_nil
  apart _ _ _ h := nomatch h

/-- A write to an object, with signals that are in no other list. -/
theorem State.Linked.write (h : s.Linked) {active : ℕ → Bool} (hnodup : o.signals.Nodup)
    (hactive : ∀ signal ∈ o.signals, active signal = true)
    (hother : ∀ ts', ts' ≠ ts → ∀ signal ∈ (s.objects ts').signals,
      active signal = true ∧ signal ∉ o.signals) :
    ({ s with active := active }.setObject ts o).Linked := by
  refine ⟨?_, ?_, fun t₁ t₂ signal h₁ h₂ => ?_⟩
  · exact (forall_update_iff s.objects fun _ x =>
      ∀ signal ∈ x.signals, active signal = true).mpr
        ⟨hactive, fun ts' hts signal hmem => (hother ts' hts signal hmem).1⟩
  · exact (forall_update_iff s.objects fun _ x => x.signals.Nodup).mpr
      ⟨hnodup, fun ts' _ => h.nodup ts'⟩
  · by_cases hts₁ : t₁ = ts
    · subst hts₁
      by_contra hts₂
      rw [State.setObject_self] at h₁
      rw [State.setObject_of_ne _ _ (Ne.symm hts₂)] at h₂
      exact (hother t₂ (Ne.symm hts₂) signal h₂).2 h₁
    · rw [State.setObject_of_ne _ _ hts₁] at h₁
      by_cases hts₂ : t₂ = ts
      · subst hts₂
        rw [State.setObject_self] at h₂
        exact absurd h₂ (hother t₁ hts₁ signal h₁).2
      · rw [State.setObject_of_ne _ _ hts₂] at h₂
        exact h.apart t₁ t₂ signal h₁ h₂

/-- A write to an object that keeps its signals. -/
theorem State.Linked.setObject (h : s.Linked)
    (hsignals : o.signals = (s.objects ts).signals) : (s.setObject ts o).Linked := by
  refine h.write (hsignals ▸ h.nodup ts) (hsignals ▸ h.active ts) fun ts' hts signal hmem => ?_
  refine ⟨h.active ts' signal hmem, fun hin => hts ?_⟩
  exact h.apart ts' ts signal hmem (hsignals ▸ hin)

/-- The signals of an object are taken off it. -/
theorem State.Linked.released (h : s.Linked) (hsignals : o.signals = []) :
    ((s.release (s.objects ts).signals).setObject ts o).Linked := by
  refine h.write (hsignals ▸ nodup_nil) (hsignals ▸ forall_mem_nil _)
    fun ts' hts signal hmem => ⟨?_, hsignals ▸ not_mem_nil⟩
  have hnot : signal ∉ (s.objects ts).signals := fun hin => hts (h.apart ts' ts signal hmem hin)
  rw [h.active ts' signal hmem, Bool.true_and, Bool.not_eq_true']
  simpa using hnot

theorem linked_doTrigger (h : s.Linked) (ts : ℕ) (reason : UInt8) (source : Source) :
    (s.doTrigger ts reason source).1.Linked := by
  rw [State.doTrigger]
  split
  · exact h.released rfl
  · exact h

theorem linked_addSignal {signal : ℕ} (h : s.Linked)
    (hadd : s.addSignal ts signal = .ok s') : s'.Linked := by
  rw [State.addSignal] at hadd
  split at hadd
  · cases hadd
  next hactive =>
  cases hadd
  -- a signal that is not active is in no list
  have hfree : ∀ ts', signal ∉ (s.objects ts').signals := fun ts' hmem =>
    hactive (h.active ts' signal hmem)
  have hset : ∀ ts', ∀ signal' ∈ (s.objects ts').signals,
      update s.active signal true signal' = true := by
    intro ts' signal' hmem
    have hne : signal' ≠ signal := fun heq => hfree ts' (heq ▸ hmem)
    rw [update_of_ne hne]
    exact h.active ts' signal' hmem
  refine h.write (nodup_cons.mpr ⟨hfree ts, h.nodup ts⟩)
    (forall_mem_cons.mpr ⟨update_self .., hset ts⟩) ?_
  intro ts' hts signal' hmem
  refine ⟨hset ts' signal' hmem, fun hin => ?_⟩
  rcases mem_cons.mp hin with rfl | hin
  · exact hfree ts' hmem
  · exact hts (h.apart ts' ts signal' hmem hin)

theorem linked_setEndstop (h : s.Linked) (e : ℕ) (endstop : Endstop) :
    (s.setEndstop e endstop).Linked :=
  { h with }

theorem linked_step (h : s.Linked) (hstep : s.step event = .ok (s', out)) : s'.Linked := by
  cases event with
  | start ts reportClock reportTicks expireReason =>
    cases hstep
    exact h.released rfl
  | setTimeout ts clock =>
    cases hstep
    rw [State.setTimeout]
    split
    · exact h.setObject rfl
    · exact h
  | trigger ts reason =>
    obtain ⟨rfl, -⟩ := parts_of_ok hstep
    exact (linked_doTrigger h ts reason .command).setObject rfl
  | addSignal ts signal =>
    obtain ⟨s₁, hadd, heq⟩ := Result.map_eq_ok hstep
    cases heq
    exact linked_addSignal h hadd
  | expire ts =>
    obtain ⟨rfl, -⟩ := parts_of_ok hstep
    rw [State.expireEvent]
    split
    · exact h
    · refine linked_doTrigger ?_ ts _ _
      exact h.setObject rfl
  | report ts =>
    cases hstep
    rw [State.reportEvent]
    split
    · exact h
    · exact h.setObject rfl
  | task ts =>
    obtain ⟨rfl, -⟩ := parts_of_ok hstep
    rw [State.task]
    split
    · exact h.setObject rfl
    · exact h
  | sensor ts reason =>
    obtain ⟨rfl, -⟩ := parts_of_ok hstep
    exact linked_doTrigger h ts reason .sensor
  | home e clock sampleTicks sampleCount restTicks pinValue ts triggerReason =>
    obtain ⟨rfl, -⟩ := parts_of_ok hstep
    exact linked_setEndstop h e _
  | endstop e val again =>
    cases sampled_endstop hstep with
    | takes endstop _ => exact linked_setEndstop h e endstop
    | triggers endstop ts reason _ =>
      exact linked_doTrigger (linked_setEndstop h e endstop) ts reason _

variable {events : List Event} {log : List Entry}

/-- A run is a step and a run. -/
theorem run_cons (h : s.run (event :: events) = .ok (s', out)) :
    ∃ s₁ out₁ out₂, s.step event = .ok (s₁, out₁) ∧
      s₁.run events = .ok (s', out₂) ∧ out = out₁ ++ out₂ := by
  obtain ⟨⟨s₁, out₁⟩, hstep, h⟩ := Result.bind_eq_ok h
  obtain ⟨⟨s₂, out₂⟩, hrun, h⟩ := Result.bind_eq_ok h
  cases h
  exact ⟨s₁, out₁, out₂, hstep, hrun, rfl⟩

theorem linked_run (h : s.Linked) (hrun : s.run events = .ok (s', out)) : s'.Linked := by
  induction events generalizing s out with
  | nil =>
    cases hrun
    exact h
  | cons event events ih =>
    obtain ⟨s₁, out₁, out₂, hstep, hrun, -⟩ := run_cons hrun
    exact ih (linked_step h hstep) hrun

/-! ## Once, and for a reason -/

/-- The object is not triggered and calls no signal. -/
def NoTrigger (ts : ℕ) (log : List Entry) : Prop := ∀ x ∈ log, ¬ x.IsAttempt ts ∧ ¬ x.IsCall ts

/-- The object calls no signal. -/
def NoCall (ts : ℕ) (log : List Entry) : Prop := ∀ x ∈ log, ¬ x.IsCall ts

/-- The first trigger, with the given reason, calls the signals registered before
    it, each once, and no signal is called before it or after that. -/
def FiredOnce (ts : ℕ) (log : List Entry) (reason : UInt8) : Prop :=
  ∃ before source after,
    log = before ++ .attempt ts reason source ::
      ((addedTo ts before).reverse.map (.call ts · reason) ++ after) ∧
    NoTrigger ts before ∧ (addedTo ts before).Nodup ∧ NoCall ts after

/-- What holds of an object since its start. -/
def Since (ts : ℕ) (o : Object) (log : List Entry) : Prop :=
  (o.canTrigger = true ∧ NoTrigger ts log ∧ o.signals = (addedTo ts log).reverse) ∨
    (o.canTrigger = false ∧ FiredOnce ts log o.triggerReason)

theorem NoTrigger.append (h : NoTrigger ts log)
    (hout : ∀ x ∈ out, x.Apart ts) : NoTrigger ts (log ++ out) :=
  forall_mem_append.mpr ⟨h, fun x hx => ⟨(hout x hx).1, (hout x hx).2.1⟩⟩

theorem FiredOnce.append {reason : UInt8} (h : FiredOnce ts log reason) (hout : NoCall ts out) :
    FiredOnce ts (log ++ out) reason := by
  obtain ⟨before, source, after, rfl, hbefore, hnodup, hafter⟩ := h
  refine ⟨before, source, after ++ out, ?_, hbefore, hnodup, forall_mem_append.mpr ⟨hafter, hout⟩⟩
  simp only [append_assoc, cons_append]

/-- What no signal is called by. -/
theorem noCall_late {after : List Entry} {reason : UInt8} {source : Source}
    (hbefore : ∀ x ∈ before, x.Apart ts) (hafter : ∀ x ∈ after, x.Apart ts) :
    NoCall ts (before ++ .attempt ts reason source :: after) := by
  rw [NoCall, forall_mem_append, forall_mem_cons]
  exact ⟨fun x hx => (hbefore x hx).2.1, id, fun x hx => (hafter x hx).2.1⟩

theorem Since.step (h : Since ts o log) (hnodup : o.signals.Nodup)
    (hacts : Acts ts o o' out) : Since ts o' (log ++ out) := by
  rcases h with ⟨hcan, hnone, hsignals⟩ | ⟨hcan, hfired⟩
  · cases hacts with
    | quiet hout hsame =>
      refine .inl ⟨hsame.canTrigger.trans hcan, hnone.append hout, ?_⟩
      rw [hsame.signals, hsignals, addedTo_append, addedTo_of_apart hout, append_nil]
    | @fired before after source hbefore hafter _ hcan' hnil =>
      have hadded : addedTo ts (log ++ before) = addedTo ts log := by
        rw [addedTo_append, addedTo_of_apart hbefore, append_nil]
      refine .inr ⟨hcan', log ++ before, source, after, ?_, hnone.append hbefore,
        ?_, fun x hx => (hafter x hx).2.1⟩
      · rw [hadded, ← hsignals, append_assoc]
      · rw [hadded]
        exact nodup_reverse.mp (hsignals ▸ hnodup)
    | late _ _ hcan' _ => exact absurd (hcan.symm.trans hcan') nofun
    | @added signal hcan' hcons _ =>
      refine .inl ⟨hcan'.trans hcan, ?_, ?_⟩
      · exact forall_mem_append.mpr ⟨hnone, forall_mem_singleton.mpr ⟨id, id⟩⟩
      · have hone : addedTo ts [.added ts signal] = [signal] := by simp [addedTo, Entry.added?]
        rw [hcons, hsignals, addedTo_append, hone, reverse_append]
        rfl
  · cases hacts with
    | quiet hout hsame =>
      refine .inr ⟨hsame.canTrigger.trans hcan, ?_⟩
      rw [hsame.triggerReason]
      exact hfired.append fun x hx => (hout x hx).2.1
    | fired _ _ hcan' _ _ => exact absurd (hcan.symm.trans hcan') nofun
    | late hbefore hafter _ hsame =>
      refine .inr ⟨hsame.canTrigger.trans hcan, ?_⟩
      rw [hsame.triggerReason]
      exact hfired.append (noCall_late hbefore hafter)
    | added hcan' _ hreason =>
      refine .inr ⟨hcan'.trans hcan, ?_⟩
      rw [hreason]
      exact hfired.append (forall_mem_singleton.mpr id)

theorem Since.run (hlinked : s.Linked) (h : Since ts (s.objects ts) log)
    (hstart : ∀ event ∈ events, ¬ event.Starts ts)
    (hrun : s.run events = .ok (s', out)) : Since ts (s'.objects ts) (log ++ out) := by
  induction events generalizing s log out with
  | nil =>
    cases hrun
    rw [append_nil]
    exact h
  | cons event events ih =>
    obtain ⟨s₁, out₁, out₂, hstep, hrest, rfl⟩ := run_cons hrun
    rw [forall_mem_cons] at hstart
    have hacts := step_acts hstart.1 hstep
    rw [← append_assoc]
    exact ih (linked_step hlinked hstep) (h.step (hlinked.nodup ts) hacts) hstart.2 hrest

/-- Between two starts the signals are called once, at the first trigger and with its reason,
    which is kept. -/
theorem fires_once (hlinked : s.Linked) {reportClock reportTicks : UInt32} {expireReason : UInt8}
    (hstart : ∀ event ∈ events, ¬ event.Starts ts)
    (hrun : s.run (.start ts reportClock reportTicks expireReason :: events) =
      .ok (s', out)) :
    NoTrigger ts out ∨ FiredOnce ts out (s'.objects ts).triggerReason := by
  obtain ⟨s₁, out₁, out₂, hstep, hrest, rfl⟩ := run_cons hrun
  have hlinked₁ := linked_step hlinked hstep
  cases hstep
  have hsince : Since ts ((s.start ts reportClock reportTicks expireReason).objects ts) [] := by
    rw [State.start, State.setObject_self]
    exact .inl ⟨rfl, nofun, rfl⟩
  rcases hsince.run hlinked₁ hstart hrest with ⟨-, hnone, -⟩ | ⟨-, hfired⟩
  · exact .inl hnone
  · exact .inr hfired

end Trsync
