import Pick.TrsyncProofs
import Pick.WordProofs

/-! # Endstops (`src/endstop.c`)

An endstop samples its pin at a slow pace until it matches, then
`sample_count` times at the pace of `sample_time`, and triggers only if all of
these match too.  One that does not sends it back to the slow pace. -/

namespace Trsync

open List

/-! ## Samples -/

/-- The sample of an endstop. -/
def Entry.sample? (e : ℕ) : Entry → Option (UInt32 × Bool)
  | .sample e' clock isMatch => if e' = e then some (clock, isMatch) else none
  | _ => none

/-- The samples of an endstop, in order. -/
def samplesOf (e : ℕ) (log : List Entry) : List (UInt32 × Bool) := log.filterMap (Entry.sample? e)

/-- The start of a homing. -/
def Entry.IsHome (e : ℕ) : Entry → Prop
  | .homed e' _ _ => e' = e
  | _ => False

/-- A trigger tried by the endstop. -/
def Entry.IsBy (e : ℕ) : Entry → Prop
  | .attempt _ _ (.endstop e') => e' = e
  | _ => False

/-- Nothing that has to do with the endstop. -/
def Entry.Foreign (e : ℕ) (x : Entry) : Prop := ¬ x.IsHome e ∧ ¬ x.IsBy e ∧ x.sample? e = none

/-- Matching samples, `step` ticks apart. -/
def spaced (first step : UInt32) (n : ℕ) : List (UInt32 × Bool) :=
  (List.range n).map fun k => (first + UInt32.ofNat k * step, true)

/-- The samples since the last `endstop_home`, and what that asked for. -/
def SinceHome (e : ℕ) (log : List Entry) (count : UInt8) (time : UInt32)
    (samples : List (UInt32 × Bool)) : Prop :=
  ∃ before after, log = before ++ .homed e count time :: after ∧
    (∀ x ∈ after, ¬ x.IsHome e) ∧ samplesOf e after = samples

/-- The endstop was homed, and its last samples, as many as asked for, match and are
    `sample_time` apart. -/
def Earned (e : ℕ) (log : List Entry) : Prop :=
  ∃ count time earlier first, count ≠ 0 ∧
    SinceHome e log count time (earlier ++ spaced first time count.toNat)

/-- Each trigger tried by the endstop is earned by what came before it. -/
def Sound (e : ℕ) : List Entry → List Entry → Prop
  | _, [] => True
  | past, x :: rest => (x.IsBy e → Earned e past) ∧ Sound e (past ++ [x]) rest

variable {s s' : State} {e : ℕ} {log out past : List Entry}
  {count : UInt8} {time first : UInt32} {samples : List (UInt32 × Bool)}

@[simp] theorem spaced_zero (first step : UInt32) : spaced first step 0 = [] := rfl

theorem spaced_succ (first step : UInt32) (n : ℕ) :
    spaced first step (n + 1) = spaced first step n ++ [(first + UInt32.ofNat n * step, true)] := by
  rw [spaced, range_succ, map_append]
  rfl

theorem samplesOf_append (e : ℕ) (l₁ l₂ : List Entry) :
    samplesOf e (l₁ ++ l₂) = samplesOf e l₁ ++ samplesOf e l₂ :=
  filterMap_append

theorem samplesOf_foreign (h : ∀ x ∈ out, x.Foreign e) : samplesOf e out = [] :=
  filterMap_eq_nil_iff.mpr fun x hx => (h x hx).2.2

theorem samplesOf_sample (e : ℕ) (clock : UInt32) (isMatch : Bool) :
    samplesOf e [.sample e clock isMatch] = [(clock, isMatch)] := by
  simp [samplesOf, Entry.sample?]

theorem SinceHome.append (h : SinceHome e log count time samples) (hout : ∀ x ∈ out, ¬ x.IsHome e) :
    SinceHome e (log ++ out) count time (samples ++ samplesOf e out) := by
  obtain ⟨before, after, rfl, hafter, rfl⟩ := h
  refine ⟨before, after ++ out, ?_, forall_mem_append.mpr ⟨hafter, hout⟩,
    samplesOf_append e after out⟩
  rw [append_assoc, cons_append]

theorem sound_append (e : ℕ) (past l₁ l₂ : List Entry) :
    Sound e past (l₁ ++ l₂) ↔ Sound e past l₁ ∧ Sound e (past ++ l₁) l₂ := by
  induction l₁ generalizing past with
  | nil =>
    rw [append_nil]
    exact (and_iff_right trivial).symm
  | cons x l₁ ih => rw [cons_append, Sound, Sound, ih, and_assoc, append_assoc, singleton_append]

theorem sound_of_not_by (h : ∀ x ∈ out, ¬ x.IsBy e) : Sound e past out := by
  induction out generalizing past with
  | nil => trivial
  | cons x out ih =>
    rw [forall_mem_cons] at h
    exact ⟨fun hx => absurd hx h.1, ih h.2⟩

/-- A trigger in a sound log is earned. -/
theorem Sound.earned {before after : List Entry} {x : Entry}
    (h : Sound e [] (before ++ x :: after)) (hx : x.IsBy e) : Earned e before := by
  have hrest := ((sound_append e [] before (x :: after)).mp h).2
  exact hrest.1 hx

/-! ## One step -/

theorem foreign_doTrigger (s : State) (ts : ℕ) (reason : UInt8) (source : Source)
    (hsource : source ≠ .endstop e) : ∀ x ∈ (s.doTrigger ts reason source).2, x.Foreign e := by
  have hattempt : (Entry.attempt ts reason source).Foreign e := by
    refine ⟨id, fun hby => hsource ?_, rfl⟩
    cases source with
    | endstop e' => exact congrArg _ hby
    | sensor | command | expire => exact hby.elim
  rw [State.doTrigger]
  split
  · exact forall_mem_cons.mpr ⟨hattempt, forall_mem_map.mpr fun _ _ => ⟨id, id, rfl⟩⟩
  · exact forall_mem_singleton.mpr hattempt

theorem endstops_doTrigger (s : State) (ts : ℕ) (reason : UInt8) (source : Source) :
    (s.doTrigger ts reason source).1.endstops = s.endstops := by
  rw [State.doTrigger]
  split
  · rfl
  · rfl

theorem State.setEndstop_self (s : State) (e : ℕ) (endstop : Endstop) :
    (s.setEndstop e endstop).endstops e = endstop := by
  simp [State.setEndstop]

variable {e' taken : ℕ} {endstop : Endstop} {earlier : List (UInt32 × Bool)}

theorem State.setEndstop_of_ne (s : State) {e : ℕ} (endstop : Endstop)
    (h : e ≠ e') : (s.setEndstop e' endstop).endstops e = s.endstops e := by
  simp [State.setEndstop, h]

/-- An endstop whose timer runs: so many matching samples have been taken in a row, so many are
    to come. -/
structure Sampling (e : ℕ) (endstop : Endstop) (log : List Entry)
    (earlier : List (UInt32 × Bool)) (first : UInt32) (taken : ℕ) : Prop where
  home : SinceHome e log endstop.sampleCount endstop.sampleTime
    (earlier ++ spaced first endstop.sampleTime taken)
  total : taken + endstop.triggerCount.toNat = endstop.sampleCount.toNat
  left : endstop.triggerCount ≠ 0
  slow : endstop.func = .event → taken = 0
  next : endstop.func = .oversample →
    endstop.waketime = first + UInt32.ofNat taken * endstop.sampleTime

/-- The samples of an endstop are in order. -/
def InOrder (e : ℕ) (endstop : Endstop) (log : List Entry) : Prop :=
  endstop.scheduled = true → ∃ earlier first taken, Sampling e endstop log earlier first taken

theorem next_clock (first step : UInt32) (n : ℕ) :
    first + UInt32.ofNat n * step + step = first + UInt32.ofNat (n + 1) * step := by
  rw [UInt32.ofNat_add, UInt32.add_mul, UInt32.add_assoc]
  simp

section Sampling

variable (h : Sampling e endstop log earlier first taken)
include h

/-- With one sample more in the log. -/
theorem Sampling.taken_home (clock : UInt32) (isMatch : Bool) :
    SinceHome e (log ++ [.sample e clock isMatch]) endstop.sampleCount
      endstop.sampleTime
      (earlier ++ spaced first endstop.sampleTime taken ++ [(clock, isMatch)]) := by
  have hnot : ∀ x ∈ [Entry.sample e clock isMatch], ¬ x.IsHome e := forall_mem_singleton.mpr id
  have hhome := h.home.append hnot
  rwa [samplesOf_sample] at hhome

/-- A sample that matches is one more in the row. -/
theorem Sampling.matching_home (hfunc : endstop.func = .oversample) :
    SinceHome e (log ++ [.sample e endstop.waketime true]) endstop.sampleCount
      endstop.sampleTime (earlier ++ spaced first endstop.sampleTime (taken + 1)) := by
  have hhome := h.taken_home endstop.waketime true
  rwa [h.next hfunc, append_assoc, ← spaced_succ, ← h.next hfunc] at hhome

theorem Sampling.sampleCount_ne : endstop.sampleCount ≠ 0 := by
  intro h0
  have htotal := h.total
  rw [h0, show (0 : UInt8).toNat = 0 from rfl] at htotal
  exact h.left (UInt8.toNat_inj.mp (by rw [show (0 : UInt8).toNat = 0 from rfl]; omega))

end Sampling

/-- At the slow pace, with whatever has been sampled. -/
theorem inOrder_slow (hhome : SinceHome e log endstop.sampleCount endstop.sampleTime samples)
    (hcount : endstop.sampleCount ≠ 0) (htrigger : endstop.triggerCount = endstop.sampleCount)
    (hfunc : endstop.func = .event) : InOrder e endstop log := by
  refine fun _ => ⟨samples, 0, 0, ?_, ?_, htrigger ▸ hcount, fun _ => rfl, fun h => ?_⟩
  · rwa [spaced_zero, append_nil]
  · rw [Nat.zero_add, htrigger]
  · exact absurd (hfunc.symm.trans h) nofun

theorem inOrder_oversample (h : Sampling e (s.endstops e) log earlier first taken)
    (hfunc : (s.endstops e).func = .oversample) (val : Bool) :
    InOrder e ((s.oversampleEvent e val).1.endstops e)
        (log ++ (s.oversampleEvent e val).2) ∧
      Sound e log (s.oversampleEvent e val).2 := by
  rw [State.oversampleEvent]
  dsimp only
  split
  · -- no match: the row is over
    refine ⟨?_, False.elim, trivial⟩
    rw [State.setEndstop_self]
    exact inOrder_slow (h.taken_home _ _) h.sampleCount_ne rfl rfl
  next hmatch =>
  have hval : (val == (s.endstops e).pinHigh) = true := beq_iff_eq.mpr (not_not.mp hmatch)
  have hhome := h.matching_home hfunc
  have hcount := Words.toNat_sub_one_uint8 h.left
  have htotal := h.total
  rw [hval]
  split
  · next hlast =>
    rw [hlast, show (0 : UInt8).toNat = 0 from rfl] at hcount
    -- the row is complete
    have hearned : Earned e (log ++ [.sample e (s.endstops e).waketime true]) := by
      refine ⟨_, (s.endstops e).sampleTime, earlier, first, h.sampleCount_ne, ?_⟩
      rwa [show (s.endstops e).sampleCount.toNat = taken + 1 by omega]
    split
    · refine ⟨fun hsched => ?_, False.elim, trivial⟩
      rw [State.setEndstop_self] at hsched
      cases hsched
    · next ts _ =>
      refine ⟨fun hsched => ?_, False.elim, ?_⟩
      · rw [endstops_doTrigger, State.setEndstop_self] at hsched
        cases hsched
      · rw [State.doTrigger]
        split
        · refine ⟨fun _ => hearned, sound_of_not_by fun x hx => ?_⟩
          obtain ⟨signal, -, rfl⟩ := mem_map.mp hx
          exact id
        · exact ⟨fun _ => hearned, trivial⟩
  · next hmore =>
    refine ⟨fun _ => ⟨earlier, first, taken + 1, ?_⟩, False.elim, trivial⟩
    rw [State.setEndstop_self]
    refine ⟨hhome, ?_, hmore, fun hslow => ?_, fun _ => ?_⟩
    · show taken + 1 + ((s.endstops e).triggerCount - 1).toNat = (s.endstops e).sampleCount.toNat
      omega
    · cases hfunc.symm.trans hslow
    · show (s.endstops e).waketime + (s.endstops e).sampleTime = _
      rw [h.next hfunc, next_clock]

theorem inOrder_endstopEvent (h : Sampling e (s.endstops e) log earlier first taken)
    (hfunc : (s.endstops e).func = .event) (val again : Bool) :
    InOrder e ((s.endstopEvent e val again).1.endstops e)
        (log ++ (s.endstopEvent e val again).2) ∧
      Sound e log (s.endstopEvent e val again).2 := by
  have htaken := h.slow hfunc
  have htotal := h.total
  have htrigger : (s.endstops e).triggerCount = (s.endstops e).sampleCount :=
    UInt8.toNat_inj.mp (by omega)
  rw [State.endstopEvent]
  dsimp only
  split
  · refine ⟨?_, False.elim, trivial⟩
    rw [State.setEndstop_self]
    exact inOrder_slow (h.taken_home _ _) h.sampleCount_ne htrigger hfunc
  · -- the first of the row is the second read at the same clock
    have hrow : Sampling e
        ((s.setEndstop e { s.endstops e with
          nextwake := (s.endstops e).waketime + (s.endstops e).restTime
          func := .oversample }).endstops e)
        (log ++ [.sample e (s.endstops e).waketime (val == (s.endstops e).pinHigh)])
        (earlier ++ spaced first (s.endstops e).sampleTime taken ++
          [((s.endstops e).waketime, val == (s.endstops e).pinHigh)])
        (s.endstops e).waketime 0 := by
      rw [State.setEndstop_self]
      refine ⟨?_, ?_, h.left, fun _ => rfl, fun _ => ?_⟩
      · rw [spaced_zero, append_nil]
        exact h.taken_home _ _
      · show 0 + (s.endstops e).triggerCount.toNat = (s.endstops e).sampleCount.toNat
        omega
      · simp
    obtain ⟨horder, hsound⟩ := inOrder_oversample hrow (by rw [State.setEndstop_self]) again
    rw [append_assoc, singleton_append] at horder
    exact ⟨horder, False.elim, hsound⟩

/-- The event has to do with the endstop. -/
def Event.Concerns (e : ℕ) : Event → Prop
  | .home e' _ _ _ _ _ _ _ => e' = e
  | .endstop e' _ _ => e' = e
  | _ => False

/-- What other events leave alone. -/
theorem step_foreign {event : Event} (hevent : ¬ event.Concerns e)
    (hstep : s.step event = .ok (s', out)) :
    s'.endstops e = s.endstops e ∧ ∀ x ∈ out, x.Foreign e := by
  have hnil : ∀ x ∈ ([] : List Entry), x.Foreign e := forall_mem_nil _
  have hstate : ∀ ts can reason, ∀ x ∈ [Entry.state ts can reason], x.Foreign e :=
    fun ts can reason => forall_mem_singleton.mpr ⟨id, id, rfl⟩
  cases event with
  | start ts reportClock reportTicks expireReason =>
    cases hstep
    exact ⟨rfl, hnil⟩
  | setTimeout ts clock =>
    cases hstep
    refine ⟨?_, hnil⟩
    rw [State.setTimeout]
    split
    · rfl
    · rfl
  | trigger ts reason =>
    obtain ⟨rfl, rfl⟩ := parts_of_ok hstep
    exact ⟨congrFun (endstops_doTrigger s ts reason .command) e,
      forall_mem_append.mpr ⟨foreign_doTrigger s ts reason .command (by simp), hstate _ _ _⟩⟩
  | addSignal ts signal =>
    obtain ⟨s₁, hadd, heq⟩ := Result.map_eq_ok hstep
    cases heq
    rw [State.addSignal] at hadd
    split at hadd
    · cases hadd
    · cases hadd
      exact ⟨rfl, forall_mem_singleton.mpr ⟨id, id, rfl⟩⟩
  | expire ts =>
    obtain ⟨rfl, rfl⟩ := parts_of_ok hstep
    rw [State.expireEvent]
    split
    · exact ⟨rfl, hnil⟩
    · exact ⟨congrFun (endstops_doTrigger _ ts _ .expire) e,
        foreign_doTrigger _ ts _ .expire (by simp)⟩
  | report ts =>
    cases hstep
    refine ⟨?_, hnil⟩
    rw [State.reportEvent]
    split
    · rfl
    · rfl
  | task ts =>
    obtain ⟨rfl, rfl⟩ := parts_of_ok hstep
    rw [State.task]
    split
    · exact ⟨rfl, hstate _ _ _⟩
    · exact ⟨rfl, hnil⟩
  | sensor ts reason =>
    obtain ⟨rfl, rfl⟩ := parts_of_ok hstep
    exact ⟨congrFun (endstops_doTrigger s ts reason .sensor) e,
      foreign_doTrigger s ts reason .sensor (by simp)⟩
  | home e' clock sampleTicks sampleCount restTicks pinValue ts triggerReason =>
    obtain ⟨rfl, rfl⟩ := parts_of_ok hstep
    have hne : e ≠ e' := fun heq => hevent heq.symm
    refine ⟨s.setEndstop_of_ne _ hne, forall_mem_singleton.mpr ?_⟩
    exact ⟨fun h => hne h.symm, id, rfl⟩
  | endstop e' val again =>
    have hne : e ≠ e' := fun heq => hevent heq.symm
    have hforeign : ∀ x : Entry, x.IsSample e' → x.Foreign e := by
      rintro _ ⟨clock, isMatch, rfl⟩
      exact ⟨id, id, if_neg (Ne.symm hne)⟩
    cases sampled_endstop hstep with
    | takes endstop hout => exact ⟨s.setEndstop_of_ne _ hne, fun x hx => hforeign x (hout x hx)⟩
    | triggers endstop ts reason hbefore =>
      refine ⟨?_, forall_mem_append.mpr ⟨fun x hx => hforeign x (hbefore x hx), ?_⟩⟩
      · rw [endstops_doTrigger, s.setEndstop_of_ne _ hne]
      · exact foreign_doTrigger _ ts _ _ fun heq => hne (Source.endstop.inj heq).symm

theorem InOrder.append (h : InOrder e endstop log)
    (hout : ∀ x ∈ out, x.Foreign e) : InOrder e endstop (log ++ out) := by
  intro hsched
  obtain ⟨earlier, first, taken, hs⟩ := h hsched
  have hhome := hs.home.append fun x hx => (hout x hx).1
  rw [samplesOf_foreign hout, append_nil] at hhome
  exact ⟨earlier, first, taken, hhome, hs.total, hs.left, hs.slow, hs.next⟩

theorem inOrder_home (s : State) (e : ℕ) (log : List Entry)
    (clock sampleTicks : UInt32) (sampleCount : UInt8) (restTicks : UInt32)
    (pinValue : Bool) (ts : ℕ) (triggerReason : UInt8) :
    InOrder e ((s.home e clock sampleTicks sampleCount restTicks pinValue ts
        triggerReason).1.endstops e)
      (log ++ [.homed e sampleCount sampleTicks]) := by
  have hhome : SinceHome e (log ++ [.homed e sampleCount sampleTicks]) sampleCount
      sampleTicks [] := ⟨log, [], rfl, nofun, rfl⟩
  rw [State.home]
  dsimp only
  rw [State.setEndstop_self]
  split
  · exact nofun
  · next hcount => exact inOrder_slow hhome hcount rfl rfl

theorem step_inOrder {event : Event} (h : InOrder e (s.endstops e) log)
    (hstep : s.step event = .ok (s', out)) :
    InOrder e (s'.endstops e) (log ++ out) ∧ Sound e log out := by
  by_cases hevent : event.Concerns e
  · cases event with
    | home e' clock sampleTicks sampleCount restTicks pinValue ts triggerReason =>
      obtain rfl : e' = e := hevent
      obtain ⟨rfl, rfl⟩ := parts_of_ok hstep
      refine ⟨inOrder_home s e' log clock sampleTicks sampleCount restTicks pinValue
        ts triggerReason, sound_of_not_by (forall_mem_singleton.mpr id)⟩
    | endstop e' val again =>
      obtain rfl : e' = e := hevent
      rw [State.step] at hstep
      split at hstep
      · next hsched =>
        obtain ⟨earlier, first, taken, hs⟩ := h hsched
        split at hstep
        · next hfunc =>
          obtain ⟨rfl, rfl⟩ := parts_of_ok hstep
          exact inOrder_endstopEvent hs hfunc val again
        · next hfunc =>
          obtain ⟨rfl, rfl⟩ := parts_of_ok hstep
          exact inOrder_oversample hs hfunc val
      · cases hstep
        rw [append_nil]
        exact ⟨h, trivial⟩
    | start | setTimeout | trigger | addSignal | expire | report | task | sensor =>
      exact hevent.elim
  · obtain ⟨hsame, hforeign⟩ := step_foreign hevent hstep
    rw [hsame]
    exact ⟨h.append hforeign, sound_of_not_by fun x hx => (hforeign x hx).2.1⟩

/-! ## Whole runs -/

theorem run_inOrder {events : List Event} (h : InOrder e (s.endstops e) log)
    (hrun : s.run events = .ok (s', out)) :
    InOrder e (s'.endstops e) (log ++ out) ∧ Sound e log out := by
  induction events generalizing s log out with
  | nil =>
    cases hrun
    rw [append_nil]
    exact ⟨h, trivial⟩
  | cons event events ih =>
    obtain ⟨s₁, out₁, out₂, hstep, hrest, rfl⟩ := run_cons hrun
    obtain ⟨horder, hsound⟩ := step_inOrder h hstep
    obtain ⟨horder', hsound'⟩ := ih horder hrest
    rw [← append_assoc]
    exact ⟨horder', (sound_append e log out₁ out₂).mpr ⟨hsound, hsound'⟩⟩

/-- **TRIGGERS FIRE ONCE AND FOR A REASON**: from one start of an object to the next only the
    first trigger calls signals, those registered by then, each once and with its reason, which
    is kept.  An endstop triggers only after the samples asked for, all matching and
    `sample_time` apart. -/
theorem triggers_once_with_reason {earlier events : List Event} {s s' : State}
    {log₀ log : List Entry} {ts : ℕ} {reportClock reportTicks : UInt32}
    {expireReason : UInt8} (hearlier : State.initial.run earlier = .ok (s, log₀))
    (hrun : s.run (.start ts reportClock reportTicks expireReason :: events) =
      .ok (s', log))
    (hstart : ∀ event ∈ events, ¬ event.Starts ts) :
    (NoTrigger ts log ∨ FiredOnce ts log (s'.objects ts).triggerReason) ∧
      ∀ e before ts' reason after,
        log₀ ++ log = before ++ .attempt ts' reason (.endstop e) :: after → Earned e before := by
  refine ⟨fires_once (linked_run linked_initial hearlier) hstart hrun, ?_⟩
  intro e before ts' reason after heq
  have hinitial : InOrder e (State.initial.endstops e) [] := nofun
  obtain ⟨horder, hsound⟩ := run_inOrder hinitial hearlier
  obtain ⟨-, hsound'⟩ := run_inOrder horder hrun
  have hall : Sound e [] (log₀ ++ log) := (sound_append e [] log₀ log).mpr ⟨hsound, hsound'⟩
  rw [heq] at hall
  exact hall.earned rfl

/-- A stepper that an endstop stops with two samples, before the host triggers too. -/
def homingRun : List Event :=
  [.addSignal 0 7, .home 5 100 10 2 50 true 0 1, .endstop 5 false false,
   .endstop 5 true true, .endstop 5 true false, .trigger 0 3]

theorem triggers_once_with_reason_homing :
    ∃ s' log, State.initial.run (.start 0 0 0 4 :: homingRun) = .ok (s', log) ∧
      Entry.call 0 7 1 ∈ log ∧
      (NoTrigger 0 log ∨ FiredOnce 0 log (s'.objects 0).triggerReason) := by
  obtain ⟨⟨s', log⟩, hrun, hcall⟩ : ∃ r,
      State.initial.run (.start 0 0 0 4 :: homingRun) = .ok r ∧ Entry.call 0 7 1 ∈ r.2 :=
    Result.exists_ok_of_any (by decide +kernel)
  have hstart : ∀ event ∈ homingRun, ¬ event.Starts 0 := by simp [homingRun, Event.Starts]
  have hnothing : State.initial.run [] = .ok (State.initial, []) := rfl
  exact ⟨s', log, hrun, hcall, (triggers_once_with_reason hnothing hrun hstart).1⟩

end Trsync
