import Pick.StepHistoryProofs

/-! # What the messages of a stepper stand for

The messages a host has queued for a stepper stand for a train of steps
with 32-bit times and directions.  Whatever the calls, that train follows
the steps that have left the queue. -/

namespace Stepcompress

open List Ramp Words

/-! ## Messages -/

/-- The segments of a list of messages; `dir` is the direction before. -/
def segments : Bool → List Msg → List (Segment UInt32 Bool)
  | _, [] => []
  | dir, .queueStep interval count add :: msgs =>
    ⟨interval, count.toUInt16.toNat, add.toUInt16.toInt16.toInt32.toUInt32,
      dir⟩ :: segments dir msgs
  | _, .setNextStepDir dir :: msgs => segments (dir ≠ 0) msgs

/-- The direction after them. -/
def lastDir : Bool → List Msg → Bool
  | dir, [] => dir
  | dir, .queueStep _ _ _ :: msgs => lastDir dir msgs
  | _, .setNextStepDir dir :: msgs => lastDir (dir ≠ 0) msgs

theorem segments_append (dir : Bool) (msgs msgs' : List Msg) :
    segments dir (msgs ++ msgs') = segments dir msgs ++ segments (lastDir dir msgs) msgs' := by
  fun_induction segments dir msgs with
  | case1 => rfl
  | case2 dir interval count add msgs ih => exact congrArg (_ :: ·) ih
  | case3 dir dir' msgs ih => exact ih

theorem lastDir_append (dir : Bool) (msgs msgs' : List Msg) :
    lastDir dir (msgs ++ msgs') = lastDir (lastDir dir msgs) msgs' := by
  fun_induction lastDir dir msgs with
  | case1 => rfl
  | case2 dir interval count add msgs ih => exact ih
  | case3 dir dir' msgs ih => exact ih

/-- The messages of a stepper. -/
def State.msgs (sc : State) : List Msg := sc.msgQueue.map QueueMessage.msg

/-! ## Moves are taken from the queue -/

variable {sc : State} {move : StepMove}

/-- A sequence covers the first `n` steps, or stops within them. -/
def Sequence.InFirst (n : Nat) : Sequence → Prop
  | .complete _ count => count = n
  | .stopped nextcount _ _ _ _ => nextcount ≤ n

theorem longest_inFirst {add : Int32} {left : Nat} :
    ∀ {count : Nat} {lo hi interval : Int32},
      (longest sc add left count lo hi interval).InFirst (count + left) := by
  intro count lo hi interval
  fun_induction longest sc add left count lo hi interval with
  | case1 => exact rfl
  | case2 left count =>
    show count + 1 ≤ count + (left + 1)
    omega
  | case3 left count =>
    rename_i ih
    rwa [Nat.add_right_comm, Nat.add_assoc] at ih

/-- The sequences found so far are in the queue. -/
def Bisect.Within (b : Bisect) (qlast : Nat) : Prop := b.bestcount ≤ qlast ∧ b.zerocount ≤ qlast

variable {fuel qlast : Nat} {sc' : State} {moveClock : WithTop Nat} {b : Bisect}
  {ss : List ℤ} {ts : List Nat} {steps : List Step} {turns : Nat}

theorem Bisect.Within.result (h : b.Within qlast) : b.result.count.toNat ≤ qlast := by
  rw [Bisect.result]
  split
  · exact (Nat.mod_le _ _).trans h.2
  · exact (Nat.mod_le _ _).trans h.1

theorem Bisect.Within.update {count : Nat}
    (h : b.Within qlast) (hc : count ≤ qlast) (interval : Int32) :
    (b.update interval count).Within qlast := by
  rw [Bisect.update]
  split
  · refine ⟨hc, ?_⟩
    show (if b.add = 0 then count else b.zerocount) ≤ qlast
    split
    · exact hc
    · exact h.2
  · exact h

theorem Bisect.Within.narrow (h : b.Within qlast)
    (sc : State) (nextcount : Nat) (point : Points) (lo hi interval : Int32) :
    (b.narrow sc nextcount point lo hi interval).Within qlast := by
  obtain ⟨hbest, hzero⟩ := h
  rw [Bisect.narrow]
  split <;> split <;> exact ⟨hbest, hzero⟩

theorem bisect_count (hq : 0 < qlast) :
    ∀ {b : Bisect}, b.Within qlast → bisect sc qlast fuel b = some move →
      move.count.toNat ≤ qlast := by
  induction fuel with
  | zero => exact nofun
  | succ fuel ih =>
    intro b hb h
    have hfirst : (longest sc b.add (qlast - 1) 1 b.outerMininterval
        b.outerMaxinterval b.outerMaxinterval).InFirst (1 + (qlast - 1)) :=
      longest_inFirst
    rw [bisect] at h
    split at h
    · rename_i interval count heq
      rw [heq] at hfirst
      have hcount : count = 1 + (qlast - 1) := hfirst
      cases h
      show count % 2 ^ 16 ≤ qlast
      exact (Nat.mod_le _ _).trans (by omega)
    · rename_i nextcount point lo hi interval heq
      rw [heq] at hfirst
      have hcount : nextcount ≤ 1 + (qlast - 1) := hfirst
      have hle : nextcount - 1 ≤ qlast := by omega
      have hb' := hb.update hle interval
      dsimp only at h
      split at h
      · cases h
        exact hb'.result
      · have hb'' := hb'.narrow sc nextcount point lo hi interval
        split at h
        · cases h
          exact hb''.result
        · refine ih ?_ h
          exact ⟨hb''.1, hb''.2⟩

/-- `compress_bisect_add` finds a move for steps that are in the queue. -/
theorem compressBisectAdd_count (hne : sc.queue ≠ []) (h : compressBisectAdd fuel sc = some move) :
    move.count.toNat ≤ sc.queue.length := by
  have hlen := length_pos_of_ne_nil hne
  have hle : move.count.toNat ≤ min sc.queue.length 65535 := by
    refine bisect_count (by omega) ?_ h
    exact ⟨by show 1 ≤ _; omega, Nat.zero_le _⟩
  omega

/-! ## What has been sent -/

/-- The times and directions of steps, as the firmware has them. -/
def pulses (invert : Bool) (ss : List ℤ) (steps : List Step) : List (UInt32 × Bool) :=
  List.zipWith (fun s step => (.ofInt s, step.dir ^^ invert)) ss steps

/-- The messages stand for steps at `ss` that follow the requests `done`.  The
    stepper starts from the clock `base` in the direction `dir₀`. -/
structure Sent (base : Nat) (dir₀ : Bool) (sc : State) (done : List Step) (ss : List ℤ) : Prop where
  train : train (.ofNat base) (segments dir₀ sc.msgs) = pulses sc.invertSdir ss done
  finish : finish (.ofNat base) (segments dir₀ sc.msgs) = UInt32.ofNat sc.lastStepClock
  follows : Follows sc.maxError.toNat base ss (done.map Step.clock)
  last : ss.getLastD base = sc.lastStepClock
  dir : ∀ d, sc.sdir = some d → lastDir dir₀ sc.msgs = (d ^^ sc.invertSdir)

theorem Follows.length_eq {maxError : Nat} {v : ℤ} (h : Follows maxError v ss ts) :
    ss.length = ts.length := by
  fun_induction Follows maxError v ss ts with
  | case1 => rfl
  | case2 v s ss t ts ih => exact congrArg (· + 1) (ih h.2)
  | case3 => exact h.elim

theorem pulses_append {invert : Bool} {ss' : List ℤ}
    {steps' : List Step} (hlen : ss.length = steps.length) :
    pulses invert (ss ++ ss') (steps ++ steps')
      = pulses invert ss steps ++ pulses invert ss' steps' :=
  zipWith_append hlen

/-- Steps in one direction. -/
theorem pulses_of_dir {invert d : Bool}
    (hlen : ss.length = steps.length) (hd : ∀ step ∈ steps, step.dir = d) :
    pulses invert ss steps = (ss.map UInt32.ofInt).map fun c => (c, d ^^ invert) := by
  induction ss generalizing steps with
  | nil => rfl
  | cons s ss ih =>
    cases steps with
    | nil => cases hlen
    | cons step steps =>
      have hrest := ih (Nat.succ.inj hlen) fun x hx => hd x (mem_cons_of_mem _ hx)
      rw [map_cons, map_cons, ← hrest, ← hd step mem_cons_self]
      rfl

variable {base : Nat} {dir₀ d : Bool} {done : List Step} {ss : List ℤ}

/-- The segment of a move. -/
theorem segments_queueStep (dir : Bool) (move : StepMove) :
    segments dir [.queueStep move.interval move.count.toUInt32
        move.add.toInt32.toUInt32]
      = [⟨move.interval, move.count.toNat, UInt32.ofInt move.add.toInt, dir⟩] := by
  rw [segments, toInt16_of_toInt32, toUInt32_toInt32_int16,
    UInt16.toUInt16_toUInt32, segments]

theorem msgs_addMove (sc : State) (firstClock : Nat) (move : StepMove) :
    (addMove sc firstClock move).msgs = sc.msgs
      ++ [.queueStep move.interval move.count.toUInt32 move.add.toInt32.toUInt32] := by
  rw [State.msgs, addMove, map_append]
  rfl

/-- **SENDING A MOVE** that follows further steps of one direction. -/
theorem Sent.addMove {I : ℤ} {firstClock : Nat}
    (h : Sent base dir₀ sc done ss) (hdir : sc.sdir = some d)
    (hsteps : ∀ step ∈ steps, step.dir = d) (hI : move.interval = UInt32.ofInt I)
    (hf : Follows sc.maxError.toNat sc.lastStepClock
      (ramp move.add.toInt move.count.toNat (sc.lastStepClock : ℤ) I) (steps.map Step.clock))
    (hlast : ((firstClock + move.ticks.toNat : Nat) : ℤ)
      = stop move.add.toInt move.count.toNat (sc.lastStepClock : ℤ) I) :
    Sent base dir₀ (addMove sc firstClock move) (done ++ steps)
      (ss ++ ramp move.add.toInt move.count.toNat (sc.lastStepClock : ℤ) I) := by
  have hsegs : segments dir₀ (Stepcompress.addMove sc firstClock move).msgs
      = segments dir₀ sc.msgs ++ [⟨move.interval, move.count.toNat,
        UInt32.ofInt move.add.toInt, d ^^ sc.invertSdir⟩] := by
    rw [msgs_addMove, segments_append, segments_queueStep, h.dir d hdir]
  have hclock : UInt32.ofInt (sc.lastStepClock : ℤ)
      = UInt32.ofNat sc.lastStepClock := ofInt_natCast _
  have hlen := h.follows.length_eq
  rw [length_map] at hlen
  have hlen' := hf.length_eq
  rw [length_map] at hlen'
  refine ⟨?_, ?_, ?_, ?_, ?_⟩
  · rw [hsegs, train_append, h.train, h.finish]
    show _ = pulses sc.invertSdir _ _
    rw [pulses_append hlen, pulses_of_dir hlen' hsteps,
      map_ramp UInt32.ofInt_add, hclock, ← hI, Ramp.train, Ramp.train,
      append_nil]
  · rw [hsegs, finish_append, h.finish, Ramp.finish, Ramp.finish, hI, ← hclock,
      ← map_stop UInt32.ofInt_add, ← hlast, ofInt_natCast]
    rfl
  · rw [map_append]
    refine follows_append h.follows ?_
    rw [h.last]
    exact hf
  · rw [getLastD_append, h.last, getLastD_ramp, ← hlast]
    rfl
  · intro d' hd'
    rw [msgs_addMove, lastDir_append]
    exact h.dir d' hd'

/-! ## Flushing -/

/-- What no flush changes. -/
structure SameSetup (sc sc' : State) : Prop where
  maxError : sc'.maxError = sc.maxError
  sdir : sc'.sdir = sc.sdir
  invertSdir : sc'.invertSdir = sc.invertSdir
  sdsFilter : sc'.sdsFilter = sc.sdsFilter
  nextStepClock : sc'.nextStepClock = sc.nextStepClock
  nextStepDir : sc'.nextStepDir = sc.nextStepDir

/-- The steps `done` are sent, with the moves of the history, and `pend` waits in the queue. -/
structure Tracks (base : Nat) (dir₀ : Bool) (sc : State) (done pend : List Step) : Prop where
  sent : ∃ ss, Sent base dir₀ sc done ss
  logged : ∃ es, Logged base (done ++ pend) done.length es sc
  pending : Pending sc (pend.map Step.clock)
  dirs : ∀ step ∈ pend, sc.sdir = some step.dir

variable {pend : List Step}

/-- The queue behind an accepted move. -/
theorem Pending.drop {n last : Nat} (h : Pending sc ts) (hlast : sc.lastStepClock ≤ last)
    (hle : last ≤ (ts.take n).getLastD sc.lastStepClock) (hclock : sc'.lastStepClock = last)
    (hqueue : sc'.queue = sc.queue.drop n) : Pending sc' (ts.drop n) := by
  refine ⟨?_, ?_, ?_, ?_⟩
  · rw [hqueue, h.queue, map_drop]
  · exact h.sorted.drop n
  · intro t ht
    rw [hclock]
    refine hle.trans ?_
    rcases eq_nil_or_concat' (ts.take n) with hnil | ⟨init, t', hcons⟩
    · rw [hnil]
      exact h.ahead t (mem_of_mem_drop ht)
    · rw [hcons, getLastD_concat]
      have hsorted := h.sorted.pairwise
      rw [← take_append_drop n ts, pairwise_append] at hsorted
      refine (hsorted.2.2 t' ?_ t ht).le
      rw [hcons]
      simp
  · intro t ht
    have hnear := h.near t (mem_of_mem_drop ht)
    omega

/-- Behind an accepted move the queue is again one of increasing steps. -/
theorem Pending.addMove (h : Pending sc ts)
    (hlen : move.count.toNat ≤ ts.length) (hok : checkLine sc move = .ok ())
    (hclock : sc'.lastStepClock
      = sc.lastStepClock + move.interval.toNat + move.ticks.toNat)
    (hqueue : sc'.queue = sc.queue.drop move.count.toNat) :
    sc.lastStepClock ≤ sc'.lastStepClock ∧ Pending sc' (ts.drop move.count.toNat) := by
  obtain ⟨-, hfollows, hlast⟩ := checkLine_follows h hlen hok
  have hge := hfollows.le_last
  have hle := hfollows.last_le (le_refl _)
  rw [getLastD_ramp, ← hlast, ← hclock] at hge hle
  have hge' : sc.lastStepClock ≤ sc'.lastStepClock := by exact_mod_cast hge
  exact ⟨hge', h.drop hge' (by exact_mod_cast hle) rfl hqueue⟩

/-- The stepper after a turn of `queue_flush` that sends a move. -/
def State.sendMove (sc : State) (move : StepMove) (pos : Nat) : State :=
  { addMove sc (sc.lastStepClock + move.interval.toNat) move
    with queue := sc.queue.drop move.count.toNat, queuePos := pos }

theorem Tracks.length_queue (h : Tracks base dir₀ sc done pend) :
    sc.queue.length = pend.length := by
  rw [h.pending.length_queue, length_map]

/-- **A TURN OF `queue_flush`** sends the steps of its move. -/
theorem Tracks.sendMove {pos : Nat} (h : Tracks base dir₀ sc done pend)
    (hne : sc.queue ≠ []) (hlen : move.count.toNat ≤ sc.queue.length)
    (hok : checkLine sc move = .ok ()) :
    sc.lastStepClock ≤ (sc.sendMove move pos).lastStepClock ∧
      Tracks base dir₀ (sc.sendMove move pos) (done ++ pend.take move.count.toNat)
        (pend.drop move.count.toNat) := by
  rw [← length_pos_iff, h.length_queue, length_pos_iff] at hne
  rw [h.pending.length_queue] at hlen
  obtain ⟨⟨ss, hsent⟩, ⟨es, hlog⟩, hpend, hdirs⟩ := h
  obtain ⟨first, hfirst⟩ := exists_mem_of_ne_nil pend hne
  have hdir := hdirs first hfirst
  obtain ⟨-, hfollows, hlast⟩ := checkLine_follows hpend hlen hok
  have hsteps : ∀ step ∈ pend, step.dir = first.dir := by
    intro step hstep
    have hd := hdirs step hstep
    rw [hdir] at hd
    exact (Option.some.inj hd).symm
  have hI : move.interval = UInt32.ofInt move.interval.toNat := by
    rw [ofInt_natCast, UInt32.ofNat_toNat]
  rw [← map_take] at hfollows
  have hsent' := hsent.addMove hdir (fun step hstep => hsteps step (mem_of_mem_take hstep))
    hI hfollows hlast
  obtain ⟨hge, hpend'⟩ : _ ∧ Pending (sc.sendMove move pos) _ := hpend.addMove hlen hok rfl rfl
  rw [← map_drop] at hpend'
  let e : Entry := ⟨sc.lastStepClock + move.interval.toNat, move, first.dir⟩
  refine ⟨hge, ⟨_, { hsent' with }⟩, ⟨es ++ [e], ?_⟩, hpend', ?_⟩
  · have hlog' := hlog.addMove (e := e) (by rw [hdir]; cases hd : first.dir <;> simp [e, hd])
      (.inl ⟨sc, pend, by rw [drop_left], hsteps, rfl, rfl, ⟨hpend, hlen, hok⟩, rfl⟩)
    rw [length_map] at hlen
    rw [append_assoc, take_append_drop, length_append, length_take, min_eq_left hlen]
    exact { hlog' with history := { hlog'.history with } }
  intro step hstep
  exact hdirs step (mem_of_mem_drop hstep)

/-- What a turn of `queue_flush` does unless it fails: the clock is reached, or a move is found,
    accepted and sent, and it covers the queue or there is a next turn. -/
theorem flushLoop_cases (hne : sc.queue ≠ [])
    (hok : flushLoop fuel moveClock (turns + 1) sc = .ok sc') :
    (moveClock ≤ sc.lastStepClock ∧ sc' = sc) ∨
      ∃ move pos, move.count.toNat ≤ sc.queue.length ∧ checkLine sc move = .ok () ∧
        ((sc' = sc.sendMove move pos ∧ sc'.queue = []) ∨
          ((sc.sendMove move pos).queue ≠ [] ∧
            flushLoop fuel moveClock turns (sc.sendMove move pos) = .ok sc')) := by
  rw [flushLoop] at hok
  split at hok
  · split at hok
    · cases hok
    · rename_i move hmove
      have hlen := compressBisectAdd_count hne hmove
      split at hok
      · cases hok
      · rename_i hline
        dsimp only at hok
        split at hok
        · rename_i hall
          cases hok
          have hdrop : sc.queue.drop move.count.toNat = [] := drop_eq_nil_of_le hall
          refine .inr ⟨move, 0, hlen, hline, .inl ⟨?_, rfl⟩⟩
          rw [State.sendMove, hdrop]
        · rename_i hmore
          refine .inr ⟨move, _, hlen, hline, .inr ⟨fun hnil => hmore ?_, hok⟩⟩
          exact drop_eq_nil_iff.mp hnil
  · rename_i hclock
    cases hok
    exact .inl ⟨not_lt.mp hclock, rfl⟩

/-- What holds behind every accepted move if it holds before. -/
def KeptBySending (I : State → Prop) : Prop :=
  ∀ (sc : State) (move : StepMove) (pos : Nat), I sc → sc.queue ≠ [] →
    move.count.toNat ≤ sc.queue.length → checkLine sc move = .ok () →
    I (sc.sendMove move pos)

/-- What every turn keeps, the loop keeps, and it ends with an empty queue or at the clock. -/
theorem flushLoop_invariant {I : State → Prop} (hsend : KeptBySending I) :
    ∀ {sc : State}, I sc → sc.queue ≠ [] → flushLoop fuel moveClock turns sc = .ok sc' →
      I sc' ∧ SameSetup sc sc' ∧ (sc'.queue = [] ∨ moveClock ≤ sc'.lastStepClock) := by
  induction turns with
  | zero => exact nofun
  | succ turns ih =>
    intro sc h hne hok
    rcases flushLoop_cases hne hok with
      ⟨hclock, rfl⟩ | ⟨move, pos, hlen, hline, ⟨rfl, hnil⟩ | ⟨hmore, hok⟩⟩
    · exact ⟨h, ⟨rfl, rfl, rfl, rfl, rfl, rfl⟩, .inr hclock⟩
    · exact ⟨hsend sc move pos h hne hlen hline, ⟨rfl, rfl, rfl, rfl, rfl, rfl⟩, .inl hnil⟩
    · obtain ⟨h', hsame, hended⟩ := ih (hsend sc move pos h hne hlen hline) hmore hok
      exact ⟨h', { hsame with }, hended⟩

/-- **AN INVARIANT OF `queue_flush`** is what sending an accepted move keeps. -/
theorem queueFlush_invariant {I : State → Prop} (hsend : KeptBySending I) (h : I sc)
    (hok : queueFlush fuel moveClock sc = .ok sc') :
    I sc' ∧ SameSetup sc sc' ∧ (sc'.queue = [] ∨ moveClock ≤ sc'.lastStepClock) := by
  rw [queueFlush] at hok
  split at hok
  · rename_i hnil
    cases hok
    exact ⟨h, ⟨rfl, rfl, rfl, rfl, rfl, rfl⟩, .inl hnil⟩
  · rename_i hne
    exact flushLoop_invariant hsend h hne hok

/-- What a flush does: it sends steps from the front of the queue, until the
    queue is empty or the clock is reached. -/
structure Flushed (base : Nat) (dir₀ : Bool) (moveClock : WithTop Nat)
    (sc sc' : State) (done pend : List Step) : Prop where
  same : SameSetup sc sc'
  tracks : ∃ k, Tracks base dir₀ sc' (done ++ pend.take k) (pend.drop k)
  clock_le : sc.lastStepClock ≤ sc'.lastStepClock
  ended : sc'.queue = [] ∨ moveClock ≤ sc'.lastStepClock

theorem queueFlush_flushed (h : Tracks base dir₀ sc done pend)
    (hok : queueFlush fuel moveClock sc = .ok sc') :
    Flushed base dir₀ moveClock sc sc' done pend := by
  obtain ⟨⟨hle, htracks⟩, hsame, hended⟩ := queueFlush_invariant
    (I := fun sc₁ => sc.lastStepClock ≤ sc₁.lastStepClock ∧
      ∃ k, Tracks base dir₀ sc₁ (done ++ pend.take k) (pend.drop k))
    (fun _ move _ ⟨hle, k, htracks⟩ hne hlen hline => by
      obtain ⟨hle', htracks'⟩ := htracks.sendMove hne hlen hline
      refine ⟨hle.trans hle', k + move.count.toNat, ?_⟩
      rw [take_add, ← drop_drop, ← append_assoc]
      exact htracks')
    ⟨le_rfl, 0, by rwa [take_zero, append_nil, drop_zero]⟩ hok
  exact ⟨hsame, htracks, hle, hended⟩

/-- A full flush leaves nothing in the queue. -/
theorem Flushed.all (h : Flushed base dir₀ ⊤ sc sc' done pend) :
    Tracks base dir₀ sc' (done ++ pend) [] := by
  obtain ⟨k, htracks⟩ := h.tracks
  have hnil : sc'.queue = [] := by
    rcases h.ended with hnil | htop
    · exact hnil
    · exact absurd htop (WithTop.coe_lt_top _).not_ge
  have hdrop : pend.drop k = [] := by
    rw [← length_eq_zero_iff, ← htracks.length_queue, hnil]
    rfl
  have htake : pend.take k = pend := by
    have happend := take_append_drop k pend
    rwa [hdrop, append_nil] at happend
  rw [hdrop, htake] at htracks
  exact htracks

end Stepcompress
