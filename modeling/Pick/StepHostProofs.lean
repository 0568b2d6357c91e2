import Pick.RunProofs
import Pick.StepTrainProofs

/-! # Runs of the host

Steps enter the queue in order, and every call keeps track of them: what
has been sent is the front of what has entered, and the rest is in the
queue. -/

namespace Stepcompress

open List Ramp

variable {base fuel : Nat} {dir₀ d : Bool} {sc sc' : State}
  {done pend : List Step}

/-! ## Directions -/

theorem toUInt32_ne_zero (b : Bool) : decide (b.toUInt32 ≠ 0) = b := by
  cases b <;> rfl

/-- The stepper behind the message for a direction. -/
def State.setDir (sc : State) (sdir : Bool) : State :=
  { sc with
    sdir := some sdir
    msgQueue := sc.msgQueue ++
      [{ msg := .setNextStepDir (sdir ^^ sc.invertSdir).toUInt32
         minClock := 0
         reqClock := sc.lastStepClock }] }

/-- A new direction comes behind a full flush. -/
theorem changeDir_cases (hok : changeDir fuel sc = .ok sc') :
    (sc.sdir = some sc.nextStepDir ∧ sc' = sc) ∨
      ∃ sc₁, queueFlush fuel ⊤ sc = .ok sc₁ ∧ sc' = sc₁.setDir sc.nextStepDir := by
  rw [changeDir] at hok
  split at hok
  · rename_i hturn
    rw [setNextStepDir, if_neg fun hsame => hturn hsame.symm] at hok
    obtain ⟨sc₁, hflush, hok⟩ := Result.bind_eq_ok hok
    cases hok
    exact .inr ⟨sc₁, hflush, rfl⟩
  · rename_i hsame
    cases hok
    exact .inl ⟨(not_not.mp hsame).symm, rfl⟩

/-- With nothing in the queue the direction is free. -/
theorem Tracks.setDir (h : Tracks base dir₀ sc done []) (d : Bool) :
    Tracks base dir₀ (sc.setDir d) done [] := by
  obtain ⟨ss, hsent⟩ := h.sent
  have hmsgs : (sc.setDir d).msgs = sc.msgs ++ [.setNextStepDir (d ^^ sc.invertSdir).toUInt32] := by
    rw [State.msgs, State.setDir, map_append]
    rfl
  have hsegs : segments dir₀ (sc.setDir d).msgs = segments dir₀ sc.msgs := by
    rw [hmsgs, segments_append]
    exact append_nil _
  obtain ⟨es, hlog⟩ := h.logged
  refine ⟨⟨ss, ?_, ?_, hsent.follows, hsent.last, ?_⟩,
    ⟨es, { hlog with history := { hlog.history with } }⟩, ⟨h.pending.queue,
    h.pending.sorted, h.pending.ahead, h.pending.near⟩, ?_⟩
  · rw [hsegs]
    exact hsent.train
  · rw [hsegs]
    exact hsent.finish
  · intro d' hd'
    cases hd'
    rw [hmsgs, lastDir_append]
    exact toUInt32_ne_zero _
  · exact forall_mem_nil _

/-! ## Entering the queue -/

/-- The fields that say what has been sent. -/
structure SameSent (sc sc' : State) : Prop where
  maxError : sc'.maxError = sc.maxError
  lastStepClock : sc'.lastStepClock = sc.lastStepClock
  msgQueue : sc'.msgQueue = sc.msgQueue
  sdir : sc'.sdir = sc.sdir
  invertSdir : sc'.invertSdir = sc.invertSdir

/-- The step at `t` is queued; the buffer may have moved. -/
structure Pushed (t : Nat) (sc sc' : State) : Prop extends SameSent sc sc' where
  lastPosition : sc'.lastPosition = sc.lastPosition
  historyList : sc'.historyList = sc.historyList
  queue : sc'.queue = sc.queue ++ [UInt32.ofNat t]

theorem pushed_makeRoom (sc : State) :
    Pushed sc.nextStepClock sc { (makeRoom sc).push (makeRoom sc).nextStepClock with
      nextStepClock := 0 } := by
  rw [makeRoom]
  split
  · split
    · exact ⟨⟨rfl, rfl, rfl, rfl, rfl⟩, rfl, rfl, rfl⟩
    · exact ⟨⟨rfl, rfl, rfl, rfl, rfl⟩, rfl, rfl, rfl⟩
  · exact ⟨⟨rfl, rfl, rfl, rfl, rfl⟩, rfl, rfl, rfl⟩

/-- A flush, or none, with the pending step in its place or taken. -/
def Flushes (fuel : Nat) (sc sc' : State) : Prop :=
  sc' = sc ∨ ∃ next moveClock, queueFlush fuel moveClock { sc with nextStepClock := next } = .ok sc'

/-- **`queue_append`** turns the stepper, may flush, and sends the pending step, far behind all
    others, or queues it. -/
theorem queueAppend_cases (hok : queueAppend fuel sc = .ok sc') :
    ∃ sc₁ sc₂, changeDir fuel sc = .ok sc₁ ∧ Flushes fuel sc₁ sc₂ ∧ sc'.nextStepClock = 0 ∧
      ((sc₂.queue = [] ∧ sc₂.lastStepClock + clockDiffMax ≤ sc₁.nextStepClock ∧
          sc' = flushFar sc₂ sc₁.nextStepClock) ∨
        (Pushed sc₁.nextStepClock sc₂ sc' ∧
          (sc₁.nextStepClock < sc₁.lastStepClock + clockDiffMax ∨
            sc₁.nextStepClock < sc₂.lastStepClock + clockDiffMax))) := by
  have hflush : ∀ {moveClock sc sc'}, queueFlush fuel moveClock sc = .ok sc' →
      SameSetup sc sc' ∧ (sc'.queue = [] ∨ moveClock ≤ sc'.lastStepClock) :=
    fun hok => (queueFlush_invariant (I := fun _ => True)
      (fun _ _ _ _ _ _ _ => trivial) trivial hok).2
  obtain ⟨sc₁, hturn, hok⟩ := Result.bind_eq_ok hok
  split at hok
  · obtain ⟨sc₂, hfar, hok⟩ := Result.bind_eq_ok hok
    obtain ⟨hsame, hended⟩ := hflush hfar
    refine ⟨sc₁, sc₂, hturn, .inr ⟨_, _, hfar⟩, ?_⟩
    split at hok
    · rename_i hge
      -- the flush has emptied the queue, or the step would not be far
      have hnil : sc₂.queue = [] := by
        rcases hended with hnil | hle
        · exact hnil
        · have hle' : sc₁.nextStepClock - clockDiffMax + 1 ≤ sc₂.lastStepClock := by
            exact_mod_cast hle
          omega
      cases hok
      exact ⟨hsame.nextStepClock, .inl ⟨hnil, hge, rfl⟩⟩
    · rename_i hnear
      cases hok
      exact ⟨hsame.nextStepClock, .inr ⟨⟨⟨rfl, rfl, rfl, rfl, rfl⟩, rfl, rfl, rfl⟩,
        .inr (not_le.mp hnear)⟩⟩
  · rename_i hnear
    split at hok
    · obtain ⟨sc₂, hexcess, hok⟩ := Result.bind_eq_ok hok
      cases hok
      have hroom := pushed_makeRoom sc₂
      rw [flushExcess] at hexcess
      split at hexcess
      · rw [(hflush hexcess).1.nextStepClock] at hroom
        exact ⟨sc₁, sc₂, hturn, .inr ⟨_, _, hexcess⟩, rfl, .inr ⟨hroom, .inl (not_le.mp hnear)⟩⟩
      · cases hexcess
        exact ⟨sc₁, sc₁, hturn, .inl rfl, rfl, .inr ⟨hroom, .inl (not_le.mp hnear)⟩⟩
    · cases hok
      exact ⟨sc₁, sc₁, hturn, .inl rfl, rfl, .inr ⟨⟨⟨rfl, rfl, rfl, rfl, rfl⟩, rfl, rfl,
        rfl⟩, .inl (not_le.mp hnear)⟩⟩

theorem Sent.congr {ss : List ℤ} (h : Sent base dir₀ sc done ss)
    (hs : SameSent sc sc') : Sent base dir₀ sc' done ss := by
  have hmsgs : sc'.msgs = sc.msgs := congrArg (List.map _) hs.msgQueue
  refine ⟨?_, ?_, ?_, ?_, ?_⟩
  · rw [hmsgs, hs.invertSdir]
    exact h.train
  · rw [hmsgs, hs.lastStepClock]
    exact h.finish
  · rw [hs.maxError]
    exact h.follows
  · rw [hs.lastStepClock]
    exact h.last
  · rw [hs.sdir, hmsgs, hs.invertSdir]
    exact h.dir

variable {t : Nat}

theorem Logged.congr {n : Nat} {steps : List Step} {es : List Entry}
    (h : Logged base steps n es sc) (hs : Pushed t sc sc') : Logged base steps n es sc' := by
  refine ⟨⟨hs.historyList.trans h.history.history, hs.lastPosition.trans h.history.position,
    h.history.made, h.history.ordered⟩, ?_, h.sent, h.clock.trans hs.lastStepClock.symm, ?_⟩
  · rw [hs.maxError]
    exact h.accepted
  · rw [hs.lastStepClock]
    exact h.past

/-- A clock after everything that has entered. -/
structure Later (base : Nat) (steps : List Step) (t : Nat) : Prop where
  base_le : base ≤ t
  lt : ∀ step ∈ steps, step.clock < t

/-- Such a clock is not before the last step. -/
theorem Tracks.lastStepClock_le (h : Tracks base dir₀ sc done pend)
    (ht : Later base done t) : sc.lastStepClock ≤ t := by
  obtain ⟨ss, hsent⟩ := h.sent
  have hle := hsent.follows.last_le (le_refl _)
  rw [hsent.last] at hle
  refine (Int.ofNat_le.mp hle).trans ?_
  rcases eq_nil_or_concat' done with rfl | ⟨init, step, rfl⟩
  · exact ht.base_le
  · rw [map_append, map_singleton, getLastD_concat]
    exact (ht.lt step (by simp)).le

/-- A step that is near is queued. -/
theorem Tracks.push (h : Tracks base dir₀ sc done pend)
    (hdir : sc.sdir = some d) (ht : Later base (done ++ pend) t)
    (hnear : t < sc.lastStepClock + clockDiffMax) (hs : Pushed t sc sc') :
    Tracks base dir₀ sc' done (pend ++ [⟨t, d⟩]) := by
  have hlsc := h.lastStepClock_le ⟨ht.base_le, fun x hx => ht.lt x (mem_append_left _ hx)⟩
  obtain ⟨⟨ss, hsent⟩, ⟨es, hlog⟩, hpend, hdirs⟩ := h
  refine ⟨⟨ss, hsent.congr hs.toSameSent⟩, ⟨es, ?_⟩, ⟨?_, ?_, ?_, ?_⟩, ?_⟩
  · rw [← append_assoc]
    exact (hlog.congr hs).mono (prefix_append _ _)
  · rw [hs.queue, hpend.queue, map_append, map_append]
    rfl
  · rw [map_append]
    refine isChain_append.mpr ⟨hpend.sorted, isChain_singleton _, ?_⟩
    intro x hx y hy
    obtain ⟨step, hstep, rfl⟩ := mem_map.mp (mem_of_mem_getLast? hx)
    cases Option.mem_some.mp hy
    exact ht.lt step (mem_append_right _ hstep)
  · rw [map_append, hs.lastStepClock]
    exact forall_mem_append.mpr ⟨hpend.ahead, forall_mem_singleton.mpr hlsc⟩
  · rw [map_append, hs.lastStepClock]
    exact forall_mem_append.mpr ⟨hpend.near, forall_mem_singleton.mpr hnear⟩
  · rw [hs.sdir]
    exact forall_mem_append.mpr ⟨hdirs, forall_mem_singleton.mpr hdir⟩

/-- A step that is far is sent by itself. -/
theorem Tracks.flushFar (h : Tracks base dir₀ sc done [])
    (hdir : sc.sdir = some d) (ht : Later base done t)
    (hfar : sc.lastStepClock + clockDiffMax ≤ t) :
    Tracks base dir₀ (flushFar sc t) (done ++ [⟨t, d⟩]) [] := by
  have hlsc := h.lastStepClock_le ht
  obtain ⟨⟨ss, hsent⟩, ⟨es, hlog⟩, hpend, -⟩ := h
  obtain ⟨move, hmove⟩ : ∃ move : StepMove, move =
      ⟨UInt32.ofNat t - UInt32.ofNat sc.lastStepClock, 1, 0⟩ := ⟨_, rfl⟩
  have hI : move.interval = UInt32.ofInt ((t : ℤ) - sc.lastStepClock) := by
    refine (Words.ofInt_of_emod ?_).symm
    rw [hmove, Words.natCast_toNat_sub, UInt32.toNat_ofNat', UInt32.toNat_ofNat']
    omega
  have hcount : move.count.toNat = 0 + 1 := by rw [hmove]; rfl
  have hticks : move.ticks = 0 := ticks_of_single (by rw [hmove])
  have hstop : (sc.lastStepClock : ℤ) + (t - sc.lastStepClock) = t := by ring
  have hfollows : Follows sc.maxError.toNat sc.lastStepClock
      (ramp move.add.toInt move.count.toNat (sc.lastStepClock : ℤ)
        (t - sc.lastStepClock)) ([(⟨t, d⟩ : Step)].map Step.clock) := by
    rw [hcount, ramp, hstop]
    refine ⟨⟨le_refl _, ?_, ?_⟩, trivial⟩
    · show (t : ℤ) ≤ t + _
      omega
    · show (sc.lastStepClock : ℤ) + t ≤ _
      omega
  have hlast : ((t + move.ticks.toNat : Nat) : ℤ)
      = stop move.add.toInt move.count.toNat (sc.lastStepClock : ℤ) (t - sc.lastStepClock) := by
    rw [hticks, hcount]
    exact hstop.symm
  have hsent' := hsent.addMove hdir
    (fun step hstep => by rw [mem_singleton.mp hstep]) hI hfollows hlast
  have hlog' : Logged base (done ++ [⟨t, d⟩] ++ []) (done ++ [(⟨t, d⟩ : Step)]).length
      (es ++ [⟨t, move, d⟩]) (addMove sc t move) := by
    rw [append_nil] at hlog ⊢
    have hmore := (hlog.mono (prefix_append done [⟨t, d⟩])).addMove (e := ⟨t, move, d⟩)
      (by rw [hdir]; cases d <;> rfl)
      (.inr ⟨by rw [hmove], hfar, by rw [drop_left]⟩)
    rwa [show (⟨t, move, d⟩ : Entry).move.count.toNat = [(⟨t, d⟩ : Step)].length from hcount,
      ← length_append] at hmore
  rw [hmove] at hsent' hlog'
  refine ⟨⟨_, hsent'⟩, ⟨_, hlog'⟩, ⟨hpend.queue, isChain_nil, ?_, ?_⟩, ?_⟩
  · exact forall_mem_nil _
  · exact forall_mem_nil _
  · exact forall_mem_nil _

/-- The steps that have entered, sent or queued, with the settings of the stepper. -/
def Holds (base : Nat) (dir₀ : Bool) (maxError : UInt32) (invert : Bool)
    (sc : State) (steps : List Step) : Prop :=
  sc.maxError = maxError ∧ sc.invertSdir = invert ∧
    ∃ done pend, steps = done ++ pend ∧ Tracks base dir₀ sc done pend

variable {maxError : UInt32} {invert : Bool} {steps : List Step}

section Enter

variable (h : Holds base dir₀ maxError invert sc steps)
include h

/-- The pending step is not part of what has entered. -/
theorem Holds.setNext (clock : Nat) (dir : Bool) :
    Holds base dir₀ maxError invert
      { sc with nextStepClock := clock, nextStepDir := dir } steps := by
  obtain ⟨he, hi, done, pend, hsteps, ⟨ss, hsent⟩, ⟨es, hlog⟩, hpend, hdirs⟩ := h
  exact ⟨he, hi, done, pend, hsteps, ⟨ss, { hsent with }⟩,
    ⟨es, { hlog with history := { hlog.history with } }⟩, { hpend with }, hdirs⟩

theorem Holds.queueFlush {moveClock : WithTop Nat} (hok : queueFlush fuel moveClock sc = .ok sc') :
    Holds base dir₀ maxError invert sc' steps ∧ SameSetup sc sc' ∧
      sc.lastStepClock ≤ sc'.lastStepClock ∧ (sc'.queue = [] ∨ moveClock ≤ sc'.lastStepClock) := by
  obtain ⟨he, hi, done, pend, rfl, htracks⟩ := h
  obtain ⟨hsame, ⟨k, htracks'⟩, hle, hended⟩ := queueFlush_flushed htracks hok
  refine ⟨⟨hsame.maxError.trans he, hsame.invertSdir.trans hi,
    done ++ pend.take k, pend.drop k, ?_, htracks'⟩, hsame, hle, hended⟩
  rw [append_assoc, take_append_drop]

/-- The direction of the next step is set, behind the steps that have entered. -/
theorem Holds.changeDir (hok : changeDir fuel sc = .ok sc') :
    Holds base dir₀ maxError invert sc' steps ∧ sc'.sdir = some sc.nextStepDir ∧
      sc'.nextStepClock = sc.nextStepClock := by
  rcases changeDir_cases hok with ⟨hdir, rfl⟩ | ⟨sc₁, hflush, rfl⟩
  · exact ⟨h, hdir, rfl⟩
  · obtain ⟨he, hi, done, pend, rfl, htracks⟩ := h
    have hflushed := queueFlush_flushed htracks hflush
    have hsame := hflushed.same
    exact ⟨⟨hsame.maxError.trans he, hsame.invertSdir.trans hi, done ++ pend, [],
      (append_nil _).symm, hflushed.all.setDir _⟩, rfl, hsame.nextStepClock⟩

theorem Holds.flushes (hf : Flushes fuel sc sc') :
    Holds base dir₀ maxError invert sc' steps ∧ sc'.sdir = sc.sdir ∧
      sc.lastStepClock ≤ sc'.lastStepClock := by
  rcases hf with rfl | ⟨next, moveClock, hflush⟩
  · exact ⟨h, rfl, le_rfl⟩
  · obtain ⟨h', hsame, hle, -⟩ := (h.setNext next sc.nextStepDir).queueFlush hflush
    exact ⟨h', hsame.sdir, hle⟩

/-- **`queue_append`** enters the pending step. -/
theorem Holds.queueAppend (ht : Later base steps sc.nextStepClock)
    (hok : queueAppend fuel sc = .ok sc') :
    Holds base dir₀ maxError invert sc' (steps ++ [⟨sc.nextStepClock, sc.nextStepDir⟩]) := by
  obtain ⟨sc₁, sc₂, hturn, hf, -, hend⟩ := queueAppend_cases hok
  obtain ⟨h₁, hdir, hnext⟩ := h.changeDir hturn
  obtain ⟨⟨he, hi, done, pend, rfl, htracks⟩, hsdir, hle⟩ := h₁.flushes hf
  rw [← hnext] at ht ⊢
  rcases hend with ⟨hnil, hfar, rfl⟩ | ⟨hpushed, hnear⟩
  · have hpend : pend = [] := by
      rw [← length_eq_zero_iff, ← htracks.length_queue, hnil]
      rfl
    subst hpend
    rw [append_nil] at ht ⊢
    exact ⟨he, hi, _, [], (append_nil _).symm, htracks.flushFar (hsdir.trans hdir) ht hfar⟩
  · exact ⟨hpushed.maxError.trans he, hpushed.invertSdir.trans hi, done, _, append_assoc _ _ _,
      htracks.push (hsdir.trans hdir) ht (by omega) hpushed⟩

/-! ## Runs -/

end Enter

/-- Steps in order of time, none before `base`. -/
structure InOrder (base : Nat) (steps : List Step) : Prop where
  base_le : ∀ step ∈ steps, base ≤ step.clock
  sorted : steps.Pairwise fun a b => a.clock < b.clock

theorem InOrder.init {step : Step} (h : InOrder base (steps ++ [step])) :
    InOrder base steps ∧ Later base steps step.clock := by
  have hsorted := pairwise_append.mp h.sorted
  refine ⟨⟨?_, hsorted.1⟩, ?_, ?_⟩
  · exact fun x hx => h.base_le x (mem_append_left _ hx)
  · exact h.base_le step (by simp)
  · exact fun x hx => hsorted.2.2 x hx step (by simp)

/-- A host whose steps, if they have entered in order, are accounted for. -/
def Accounts (base : Nat) (dir₀ : Bool) (maxError : UInt32) (invert : Bool) (h : Host) : Prop :=
  InOrder base h.entered → Holds base dir₀ maxError invert h.sc h.entered

variable {h h' : Host}

theorem Accounts.enter (ha : Accounts base dir₀ maxError invert h) (hok : h.enter fuel = .ok h') :
    Accounts base dir₀ maxError invert h' := by
  obtain ⟨sc, happend, hok⟩ := Result.bind_eq_ok hok
  cases hok
  intro horder
  obtain ⟨horder', hlater⟩ := horder.init
  exact (ha horder').queueAppend hlater happend

theorem Accounts.setNext (ha : Accounts base dir₀ maxError invert h) (clock : Nat) (dir : Bool) :
    Accounts base dir₀ maxError invert { h with
      sc := { h.sc with nextStepClock := clock, nextStepDir := dir } } := by
  intro horder
  exact (ha horder).setNext clock dir

/-- **AN INVARIANT OF THE CALLS** is what the pending step does not matter to, and
    what entering it and flushing keep. -/
theorem call_invariant {I : Host → Prop} {call : Call}
    (hnext : ∀ {h : Host} (clock : Nat) (dir : Bool), I h → I { h with
      sc := { h.sc with nextStepClock := clock, nextStepDir := dir } })
    (henter : ∀ {h h' : Host}, I h → h.enter fuel = .ok h' → I h')
    (hflush : ∀ {h : Host} {moveClock : WithTop Nat} {sc : State}, I h →
      queueFlush fuel moveClock h.sc = .ok sc → I { h with sc := sc })
    (hi : I h) (hok : h.call fuel call = .ok h') : I h' := by
  cases call with
  | append sdir stepClock =>
    change h.append fuel sdir stepClock = .ok h' at hok
    rw [Host.append] at hok
    split at hok
    · split at hok
      · cases hok
        exact hnext 0 sdir hi
      · obtain ⟨h₁, hok₁, hok⟩ := Result.bind_eq_ok hok
        cases hok
        exact hnext stepClock sdir (henter hi hok₁)
    · cases hok
      exact hnext stepClock sdir hi
  | commit =>
    change h.commit fuel = .ok h' at hok
    rw [Host.commit] at hok
    split at hok
    · exact henter hi hok
    · cases hok
      exact hi
  | flush moveClock =>
    obtain ⟨h₁, hok₁, hok⟩ := Result.bind_eq_ok hok
    obtain ⟨sc, hok₂, hok⟩ := Result.bind_eq_ok hok
    cases hok
    refine hflush ?_ hok₂
    rw [Host.enterUpTo] at hok₁
    split at hok₁
    · exact henter hi hok₁
    · cases hok₁
      exact hi

theorem Accounts.call {call : Call} (ha : Accounts base dir₀ maxError invert h)
    (hok : h.call fuel call = .ok h') : Accounts base dir₀ maxError invert h' :=
  call_invariant (fun clock dir ha => ha.setNext clock dir) Accounts.enter
    (fun ha hflush horder => ((ha horder).queueFlush hflush).1) ha hok

end Stepcompress
