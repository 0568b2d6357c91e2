import Pick.LookaheadPlanProofs

/-! # A flush carries out the plan

The loop of `flush` goes backward and keeps delayed moves aside, so the
junctions it sets are not in the order of the queue.  Its invariant says
that they are those of the plan for every move that is no longer delayed. -/

namespace Lookahead

open List

variable {K : Type} [Field K] [LinearOrder K]

/-! ## The loop carries out the plan -/

/-- The delayed moves at the front of a queue. -/
def delayedOf : Nat → List (Move K) → List (Delayed K)
  | _, [] => []
  | i, m :: ms =>
    if Waits (m :: ms) then
      ⟨i, m, startV2 (m :: ms), startV2 ms⟩ :: delayedOf (i + 1) ms
    else []

/-- The queue behind them. -/
def undelayed : List (Move K) → List (Move K)
  | [] => []
  | m :: ms => if Waits (m :: ms) then undelayed ms else m :: ms

variable {root : SquareRoot K} {m : Move K} {ms : List (Move K)}

theorem undelayed_of_not_waits (h : ¬ Waits ms) : undelayed ms = ms := by
  cases ms with
  | nil => rfl
  | cons m ms => rw [undelayed, if_neg h]

theorem delayedOf_of_not_waits (h : ¬ Waits ms) (i : Nat) : delayedOf i ms = [] := by
  cases ms with
  | nil => rfl
  | cons m ms => rw [delayedOf, if_neg h]

theorem delayedOf_isEmpty (i : Nat) (ms : List (Move K)) :
    (delayedOf i ms).isEmpty = false ↔ Waits ms := by
  cases ms with
  | nil =>
    constructor
    · intro h
      cases h
    · intro h
      exact h.elim
  | cons m ms =>
    by_cases hw : Waits (m :: ms)
    · rw [delayedOf, if_pos hw]
      exact iff_of_true rfl hw
    · rw [delayedOf, if_neg hw]
      exact iff_of_false nofun hw

/-- The plan of a queue that does not wait needs no speed before it. -/
theorem plan_of_not_waits (h : ¬ Waits ms) (a b : K) : plan root a ms = plan root b ms := by
  cases ms with
  | nil => rfl
  | cons m ms => rw [plan, plan, if_neg h, if_neg h]

/-- Behind the delayed moves a plan is that of the queue behind them. -/
theorem plan_behind_delayed (ms : List (Move K)) :
    ∀ (i k : Nat) (mcV2 : K),
      (plan root mcV2 ms)[(delayedOf i ms).length + k]? = (plan root 0 (undelayed ms))[k]? := by
  induction ms with
  | nil => exact fun i k mcV2 => by rw [delayedOf]; simp [plan, undelayed]
  | cons m ms ih =>
    intro i k mcV2
    by_cases hw : Waits (m :: ms)
    · rw [delayedOf, if_pos hw, undelayed, if_pos hw, plan, if_pos hw,
        length_cons, add_right_comm, getElem?_cons_succ]
      exact ih (i + 1) k _
    · rw [delayedOf, if_neg hw, undelayed, if_neg hw, length_nil,
        zero_add, plan_of_not_waits hw mcV2 0]

/-- `propagate` gives the delayed moves the speeds of the plan. -/
theorem propagate_delayedOf (ms : List (Move K)) :
    ∀ (i k : Nat) (mcV2 : K) (junctions : Nat → Option (Junction K)),
      propagate root mcV2 (delayedOf i ms) junctions k
        = if i ≤ k ∧ k < i + (delayedOf i ms).length then
            (plan root mcV2 ms)[k - i]?
          else junctions k := by
  induction ms with
  | nil =>
    intro i k mcV2 junctions
    rw [delayedOf, propagate, if_neg]
    rintro ⟨hle, hlt⟩
    exact absurd hlt (not_lt.mpr hle)
  | cons m ms ih =>
    intro i k mcV2 junctions
    by_cases hw : Waits (m :: ms)
    · rw [delayedOf, if_pos hw, propagate, ih, plan, if_pos hw, length_cons]
      by_cases hk : k = i
      · subst hk
        rw [if_neg (by omega), if_pos (by omega), Nat.sub_self, setAt, if_pos rfl]
        rfl
      · by_cases hin : i + 1 ≤ k ∧ k < i + 1 + (delayedOf (i + 1) ms).length
        · obtain ⟨d, rfl⟩ : ∃ d, k = i + 1 + d := ⟨k - (i + 1), by omega⟩
          have hsub : i + 1 + d - i = d + 1 := by omega
          rw [if_pos hin, if_pos (by omega), Nat.add_sub_cancel_left, hsub, getElem?_cons_succ]
        · rw [if_neg hin, if_neg (by omega), setAt, if_neg hk]
    · rw [delayedOf, if_neg hw, propagate, if_neg]
      rintro ⟨hle, hlt⟩
      exact absurd hlt (not_lt.mpr hle)

/-! ## One turn of the loop -/

/-- The variables of the loop that speak of speeds, behind place `i`. -/
structure Tracks (i : Nat) (ms : List (Move K)) (s : Pass K) : Prop where
  nextEnd : s.nextEndV2 = startV2 ms
  nextSmoothed : s.nextSmoothedV2 = smoothedV2 ms
  peak : s.peakCruiseV2 = peakV2 ms
  delayed : s.delayed = delayedOf i ms

/-- The turn at which a lazy flush decides how many moves it returns. -/
def Cuts (m : Move K) (ms : List (Move K)) (s : Pass K) : Prop :=
  Peaks (m :: ms) ∧ s.updateFlushCount = true ∧ peakV2 ms ≠ 0

/-- The variables at a move that is not delayed, before its own junction is set. -/
structure PeakKnown (root : SquareRoot K) (i : Nat) (m : Move K)
    (ms : List (Move K)) (s s₁ : Pass K) : Prop where
  nextEnd : s₁.nextEndV2 = startV2 ms
  peak : s₁.peakCruiseV2 = peakV2 (m :: ms)
  delayed : s₁.delayed = []
  cut : Cuts m ms s → s₁.updateFlushCount = false ∧ s₁.flushCount = i
  kept : ¬ Cuts m ms s → s₁.updateFlushCount = s.updateFlushCount ∧ s₁.flushCount = s.flushCount
  junctions : s₁.sets i → s₁.junctions =
    propagate root (peakV2 (m :: ms)) (delayedOf (i + 1) ms) s.junctions

/-- What a turn does to the count and the junctions when its move is not delayed. -/
structure Settles (root : SquareRoot K) (i : Nat) (m : Move K)
    (ms : List (Move K)) (s s' : Pass K) : Prop where
  cut : Cuts m ms s → s'.updateFlushCount = false ∧ s'.flushCount = i
  kept : ¬ Cuts m ms s → s'.updateFlushCount = s.updateFlushCount ∧ s'.flushCount = s.flushCount
  junctions : s'.sets i →
    s'.junctions = setAt (propagate root (peakV2 (m :: ms)) (delayedOf (i + 1) ms) s.junctions) i
      (m.data.setJunction root (min (startV2 (m :: ms)) (cruiseV2 (m :: ms)))
        (cruiseV2 (m :: ms)) (min (startV2 ms) (cruiseV2 (m :: ms))))

variable {i : Nat} {s : Pass K}

/-- A turn that delays its move. -/
theorem visit_of_waits (h : Tracks (i + 1) ms s) (hw : Waits (m :: ms)) :
    visit root i m s = { s with
      delayed := delayedOf i (m :: ms)
      nextEndV2 := startV2 (m :: ms)
      nextSmoothedV2 := smoothedV2 (m :: ms) } := by
  have hge : ¬ min m.maxSmoothedV2 (smoothedV2 ms + m.data.smoothDeltaV2)
      < smoothedV2 ms + m.data.smoothDeltaV2 := by
    rw [min_eq_right hw]
    exact lt_irrefl _
  rw [visit, h.nextEnd, h.nextSmoothed, if_neg hge, delayedOf, if_pos hw, h.delayed]
  rfl

/-- A turn at a move that sets the peak speed, up to its own junction. -/
theorem peakKnown_atPeak {s₁ : Pass K} (h : Tracks (i + 1) ms s) (hp : Peaks (m :: ms))
    (hs₁ : s₁ = atPeak root i m (smoothedV2 (m :: ms)) (smoothedV2 ms + m.data.smoothDeltaV2) s) :
    PeakKnown root i m ms s s₁ := by
  have hpeak : peakV2 (m :: ms) = min m.data.maxCruiseV2 ((smoothedV2 (m :: ms)
      + (smoothedV2 ms + m.data.smoothDeltaV2)) * (1 / 2)) := by
    rw [peakV2, if_pos hp]
  by_cases hc : s.updateFlushCount = true ∧ s.peakCruiseV2 ≠ 0
  · have hcut : Cuts m ms s := ⟨hp, hc.1, h.peak ▸ hc.2⟩
    rw [atPeak, if_pos hc] at hs₁
    subst hs₁
    refine ⟨h.nextEnd, hpeak.symm, rfl, fun _ => ⟨rfl, rfl⟩, fun hn => absurd hcut hn, ?_⟩
    intro hs
    exact absurd hs.2 (lt_irrefl i)
  · have hcut : ¬ Cuts m ms s := fun hcut => hc ⟨hcut.2.1, h.peak ▸ hcut.2.2⟩
    rw [atPeak, if_neg hc] at hs₁
    subst hs₁
    refine ⟨h.nextEnd, hpeak.symm, rfl, fun hy => absurd hy hcut, fun _ => ⟨rfl, rfl⟩, ?_⟩
    intro hs
    rw [hpeak, ← h.delayed]
    exact if_pos hs

/-- A turn at a move that accelerates fully towards a later peak: nothing is
    delayed and the peak stays. -/
theorem peakKnown_of_not_peaks (h : Tracks (i + 1) ms s)
    (hw : ¬ Waits (m :: ms)) (hp : ¬ Peaks (m :: ms)) : PeakKnown root i m ms s s := by
  have hwn : ¬ Waits ms := fun hc => hp ⟨hw, .inr hc⟩
  refine ⟨h.nextEnd, ?_, ?_, fun hc => absurd hc.1 hp, fun _ => ⟨rfl, rfl⟩, fun _ => ?_⟩
  · rw [h.peak, peakV2, if_neg hp]
  · rw [h.delayed, delayedOf_of_not_waits hwn]
  · rw [delayedOf_of_not_waits hwn, propagate]

/-- A turn that does not delay its move. -/
theorem visit_of_not_waits (h : Tracks (i + 1) ms s) (hw : ¬ Waits (m :: ms)) :
    Tracks i (m :: ms) (visit root i m s) ∧ Settles root i m ms s (visit root i m s) := by
  have hlt : min m.maxSmoothedV2 (smoothedV2 ms + m.data.smoothDeltaV2)
      < smoothedV2 ms + m.data.smoothDeltaV2 := by
    rw [min_eq_left (not_le.mp hw).le]
    exact not_le.mp hw
  obtain ⟨s₁, hs₁⟩ : ∃ s₁, s₁ =
      if smoothedV2 (m :: ms) + m.data.smoothDeltaV2 > smoothedV2 ms
          ∨ s.delayed.isEmpty = false then
        atPeak root i m (smoothedV2 (m :: ms)) (smoothedV2 ms + m.data.smoothDeltaV2) s
      else s := ⟨_, rfl⟩
  have hknown : PeakKnown root i m ms s s₁ := by
    have hdelayed : s.delayed.isEmpty = false ↔ Waits ms := by rw [h.delayed, delayedOf_isEmpty]
    by_cases hp : Peaks (m :: ms)
    · rw [if_pos (hp.2.imp id hdelayed.mpr)] at hs₁
      exact peakKnown_atPeak h hp hs₁
    · rw [if_neg fun hc => hp ⟨hw, hc.imp id hdelayed.mp⟩] at hs₁
      rw [hs₁]
      exact peakKnown_of_not_peaks h hw hp
  have hvisit : visit root i m s = { s₁ with
      nextEndV2 := startV2 (m :: ms)
      nextSmoothedV2 := smoothedV2 (m :: ms)
      junctions :=
        if s₁.sets i then
          setAt s₁.junctions i (m.data.setJunction root
            (min (startV2 (m :: ms)) (cruiseV2 (m :: ms)))
            (cruiseV2 (m :: ms)) (min (startV2 ms) (cruiseV2 (m :: ms))))
        else s₁.junctions } := by
    have hs₁' := hs₁
    rw [smoothedV2] at hs₁'
    simp only [visit, h.nextEnd, h.nextSmoothed, if_pos hlt, ← hs₁']
    by_cases hs : s₁.sets i
    · simp only [if_pos hs]
      rw [hknown.peak, hknown.nextEnd]
      rfl
    · simp only [if_neg hs]
      rfl
  rw [hvisit]
  refine ⟨⟨rfl, rfl, hknown.peak, ?_⟩, hknown.cut, hknown.kept, ?_⟩
  · rw [delayedOf_of_not_waits hw]
    exact hknown.delayed
  · intro hs
    rw [← hknown.junctions hs]
    exact if_pos hs

/-! ## The loop -/

/-- Where a lazy flush cuts: at a peak with another one behind it. -/
def CutAt (i : Nat) (ms : List (Move K)) (count : Nat) : Prop :=
  ∃ front m rest, ms = front ++ m :: rest ∧ count = i + front.length ∧
    Peaks (m :: rest) ∧ peakV2 rest ≠ 0

/-- The invariant of the loop at place `i`; `n` is the length of the queue. -/
structure LoopInv (root : SquareRoot K) (lazy : Bool) (n i : Nat)
    (ms : List (Move K)) (s : Pass K) : Prop where
  tracks : Tracks i ms s
  count : (s.updateFlushCount = lazy ∧ s.flushCount = n) ∨
    (lazy = true ∧ s.updateFlushCount = false ∧ CutAt i ms s.flushCount)
  delayed_le : i + (delayedOf i ms).length ≤ s.flushCount
  junctions : s.updateFlushCount = false →
    ∀ k, i + (delayedOf i ms).length + k < s.flushCount →
      s.junctions (i + (delayedOf i ms).length + k) = (plan root 0 (undelayed ms))[k]?

theorem CutAt.cons {count : Nat} (h : CutAt (i + 1) ms count) (m : Move K) :
    CutAt i (m :: ms) count := by
  obtain ⟨front, m', rest, rfl, rfl, hp, hpeak⟩ := h
  refine ⟨m :: front, m', rest, rfl, ?_, hp, hpeak⟩
  rw [length_cons]
  omega

variable {lazy : Bool} {n : Nat}

theorem LoopInv.visit_waits (h : LoopInv root lazy n (i + 1) ms s) (hw : Waits (m :: ms)) :
    LoopInv root lazy n i (m :: ms) (visit root i m s) := by
  have hnp : ¬ Peaks (m :: ms) := fun hp => hp.1 hw
  have hlen : (delayedOf i (m :: ms)).length = (delayedOf (i + 1) ms).length + 1 := by
    rw [delayedOf, if_pos hw, length_cons]
  have hle := h.delayed_le
  rw [visit_of_waits h.tracks hw]
  refine ⟨⟨rfl, rfl, ?_, rfl⟩, ?_, ?_, ?_⟩
  · rw [peakV2, if_neg hnp]
    exact h.tracks.peak
  · exact h.count.imp id fun hc => ⟨hc.1, hc.2.1, hc.2.2.cons m⟩
  · show _ ≤ s.flushCount
    omega
  · intro hu k hk
    have hplace : i + (delayedOf i (m :: ms)).length + k
        = i + 1 + (delayedOf (i + 1) ms).length + k := by omega
    rw [hplace] at hk ⊢
    rw [undelayed, if_pos hw]
    exact h.junctions hu k hk

/-- Once the delayed moves have their speeds, all moves behind have those of the plan. -/
theorem LoopInv.propagate_eq (h : LoopInv root lazy n i ms s)
    (hu : s.updateFlushCount = false) (mcV2 : K) {k : Nat} (hk : i + k < s.flushCount) :
    propagate root mcV2 (delayedOf i ms) s.junctions (i + k) = (plan root mcV2 ms)[k]? := by
  rw [propagate_delayedOf]
  by_cases hd : k < (delayedOf i ms).length
  · rw [if_pos (by omega), Nat.add_sub_cancel_left]
  · obtain ⟨d, rfl⟩ := Nat.exists_eq_add_of_le (not_lt.mp hd)
    rw [if_neg (by omega), plan_behind_delayed, ← add_assoc]
    exact h.junctions hu d (by omega)

theorem LoopInv.visit_not_waits (h : LoopInv root lazy n (i + 1) ms s) (hw : ¬ Waits (m :: ms)) :
    LoopInv root lazy n i (m :: ms) (visit root i m s) := by
  obtain ⟨htracks, hsettles⟩ : Tracks i (m :: ms) (visit root i m s) ∧
      Settles root i m ms s (visit root i m s) :=
    visit_of_not_waits h.tracks hw
  have hlen : (delayedOf i (m :: ms)).length = 0 := by
    rw [delayedOf_of_not_waits hw, length_nil]
  have hle := h.delayed_le
  by_cases hc : Cuts m ms s
  · -- the flush is cut here: no move before this place is decided yet
    obtain ⟨hu, hcount⟩ := hsettles.cut hc
    have hlazy : lazy = true := by
      rcases h.count with ⟨heq, -⟩ | ⟨hlazy, -⟩
      · exact heq.symm.trans hc.2.1
      · exact hlazy
    refine ⟨htracks, .inr ⟨hlazy, hu, [], m, ms, rfl, hcount, hc.1, hc.2.2⟩, ?_, ?_⟩
    · rw [hlen, hcount]
      exact le_refl i
    · intro _ k hk
      rw [hcount] at hk
      omega
  · obtain ⟨hu, hcount⟩ := hsettles.kept hc
    refine ⟨htracks, ?_, ?_, ?_⟩
    · rw [hu, hcount]
      exact h.count.imp id fun hc => ⟨hc.1, hc.2.1, hc.2.2.cons m⟩
    · rw [hlen, hcount]
      omega
    · intro hu' k hk
      rw [hlen, add_zero] at hk ⊢
      rw [hsettles.junctions ⟨hu', by omega⟩, undelayed_of_not_waits hw, plan, if_neg hw]
      cases k with
      | zero => rw [setAt, if_pos (add_zero i), getElem?_cons_zero]
      | succ k =>
        have hplace : i + (k + 1) = i + 1 + k := by omega
        rw [hu] at hu'
        rw [hcount, hplace] at hk
        rw [setAt, if_neg (by omega), getElem?_cons_succ, hplace]
        exact h.propagate_eq hu' _ hk

/-- The loop keeps its invariant. -/
theorem loopInv_flushLoop (root : SquareRoot K) (lazy : Bool) (ms : List (Move K)) :
    ∀ i, LoopInv root lazy (i + ms.length) i ms (flushLoop root lazy (i + ms.length) i ms) := by
  induction ms with
  | nil =>
    intro i
    refine ⟨⟨rfl, rfl, rfl, rfl⟩, .inl ⟨rfl, rfl⟩, le_refl _, ?_⟩
    intro _ k hk
    exact absurd hk (by
      show ¬ i + 0 + k < i + 0
      omega)
  | cons m ms ih =>
    intro i
    have hlen : i + (m :: ms).length = i + 1 + ms.length := by
      rw [length_cons]
      omega
    rw [hlen, flushLoop]
    by_cases hw : Waits (m :: ms)
    · exact (ih (i + 1)).visit_waits hw
    · exact (ih (i + 1)).visit_not_waits hw

/-! ## The moves returned -/

/-- Moves with the junctions set for them. -/
def planned (ms : List (Move K)) (js : List (Junction K)) : List (Planned K) :=
  List.zipWith (fun m j => ⟨m, some j⟩) ms js

theorem length_plan (root : SquareRoot K) (ms : List (Move K)) :
    ∀ mcV2, (plan root mcV2 ms).length = ms.length := by
  intro mcV2
  fun_induction plan root mcV2 ms with
  | case1 => rfl
  | case2 mcV2 m ms hw mcV2' ih | case3 mcV2 m ms hw ih => exact congrArg (· + 1) ih

/-- Moves paired with the junctions at their places. -/
theorem mapIdx_eq_planned {junctions : Nat → Option (Junction K)}
    {js : List (Junction K)} (hlen : js.length = ms.length)
    (hjs : ∀ k < ms.length, junctions k = js[k]?) :
    (ms.mapIdx fun k m => (⟨m, junctions k⟩ : Planned K)) = planned ms js := by
  refine ext_getElem ?_ ?_
  · rw [length_mapIdx, planned, length_zipWith, hlen, min_self]
  · intro k hk hk'
    rw [length_mapIdx] at hk
    have hj : k < js.length := hlen ▸ hk
    simp only [planned, getElem_mapIdx, getElem_zipWith, hjs k hk, getElem?_eq_getElem hj]

/-- **FLUSHES CARRY OUT THE PLAN** of a queue whose first move is not delayed: a full flush returns
    it all, a lazy one nothing or what is before a cut. -/
theorem flush_eq (root : SquareRoot K) (lazy : Bool) {queue : List (Move K)} (hw : ¬ Waits queue) :
    (lazy = true ∧ flush root lazy queue = ([], queue)) ∨
      ∃ count, ((lazy = false ∧ count = queue.length) ∨ (lazy = true ∧ CutAt 0 queue count)) ∧
        flush root lazy queue =
          (planned (queue.take count) ((plan root 0 queue).take count), queue.drop count) := by
  have hinv : LoopInv root lazy queue.length 0 queue
      (flushLoop root lazy queue.length 0 queue) := by
    have h := loopInv_flushLoop root lazy queue 0
    rwa [Nat.zero_add] at h
  obtain ⟨s, hs⟩ : ∃ s, s = flushLoop root lazy queue.length 0 queue := ⟨_, rfl⟩
  rw [← hs] at hinv
  have hflush : flush root lazy queue
      = if s.updateFlushCount = true ∨ s.flushCount = 0 then ([], queue)
        else ((queue.take s.flushCount).mapIdx fun i m => ⟨m, s.junctions i⟩,
          queue.drop s.flushCount) := by
    rw [hs]
    rfl
  have hjs : s.updateFlushCount = false → ∀ k < s.flushCount,
      s.junctions k = (plan root 0 queue)[k]? := by
    intro hu k hk
    have h := hinv.junctions hu k
    rw [delayedOf_of_not_waits hw, undelayed_of_not_waits hw, length_nil, Nat.zero_add] at h
    exact h hk
  cases hu : s.updateFlushCount with
  | true =>
    refine .inl ⟨?_, ?_⟩
    · rcases hinv.count with ⟨heq, -⟩ | ⟨hlazy, -⟩
      · exact heq.symm.trans hu
      · exact hlazy
    · rw [hflush, if_pos (.inl hu)]
  | false =>
    refine .inr ⟨s.flushCount, ?_, ?_⟩
    · rcases hinv.count with ⟨heq, hn⟩ | ⟨hlazy, -, hcut⟩
      · exact .inl ⟨heq.symm.trans hu, hn⟩
      · exact .inr ⟨hlazy, hcut⟩
    · by_cases hz : s.flushCount = 0
      · rw [hflush, if_pos (.inr hz), hz]
        rfl
      · have hor : ¬ (s.updateFlushCount = true ∨ s.flushCount = 0) := by
          rw [hu]
          exact fun h => h.elim nofun hz
        rw [hflush, if_neg hor]
        refine Prod.ext (mapIdx_eq_planned ?_ ?_) rfl
        · rw [length_take, length_take, length_plan]
        · intro k hk
          rw [length_take] at hk
          have hk' : k < s.flushCount := lt_of_lt_of_le hk (min_le_left _ _)
          rw [hjs hu k hk', getElem?_take_of_lt hk']

end Lookahead
