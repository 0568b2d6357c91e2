import Pick.LookaheadProofs

/-! # The plan a flush makes

What `flush` decides for a move depends on the moves from it to the end of the
queue, and for delayed moves on the peak speed before them.  This file states the
decision for a whole queue at once, as the *plan*. -/

namespace Lookahead

open List

variable {K : Type} [Field K] [LinearOrder K]

/-! ## Speeds, from the end of the queue -/

/-- `start_v2` of the first move. -/
def startV2 : List (Move K) → K
  | [] => 0
  | m :: ms => min m.maxStartV2 (startV2 ms + m.data.deltaV2)

/-- `smoothed_v2` of the first move. -/
def smoothedV2 : List (Move K) → K
  | [] => 0
  | m :: ms => min m.maxSmoothedV2 (smoothedV2 ms + m.data.smoothDeltaV2)

/-- The first move is delayed. -/
def Waits : List (Move K) → Prop
  | [] => False
  | m :: ms => smoothedV2 ms + m.data.smoothDeltaV2 ≤ m.maxSmoothedV2

/-- The first move sets the peak speed. -/
def Peaks : List (Move K) → Prop
  | [] => False
  | m :: ms => ¬ Waits (m :: ms) ∧
      (smoothedV2 ms < smoothedV2 (m :: ms) + m.data.smoothDeltaV2 ∨ Waits ms)

instance (ms : List (Move K)) : Decidable (Waits ms) :=
  match ms with
  | [] => inferInstanceAs (Decidable False)
  | _ :: _ => inferInstanceAs (Decidable (_ ≤ _))

instance (ms : List (Move K)) : Decidable (Peaks ms) :=
  match ms with
  | [] => inferInstanceAs (Decidable False)
  | _ :: _ => inferInstanceAs (Decidable (_ ∧ _))

/-- `peak_cruise_v2` after the first move. -/
def peakV2 : List (Move K) → K
  | [] => 0
  | m :: ms =>
    if Peaks (m :: ms) then
      min m.data.maxCruiseV2 ((smoothedV2 (m :: ms)
        + (smoothedV2 ms + m.data.smoothDeltaV2)) * (1 / 2))
    else peakV2 ms

/-- `cruise_v2` of a first move that is not delayed. -/
def cruiseV2 : List (Move K) → K
  | [] => 0
  | m :: ms => min (min ((startV2 (m :: ms)
      + (startV2 ms + m.data.deltaV2)) * (1 / 2)) m.data.maxCruiseV2)
      (peakV2 (m :: ms))

/-- The junctions of a queue; `mcV2` is the cruise speed before it. -/
def plan (root : SquareRoot K) : K → List (Move K) → List (Junction K)
  | _, [] => []
  | mcV2, m :: ms =>
    if Waits (m :: ms) then
      let mcV2 := min mcV2 (startV2 (m :: ms))
      m.data.setJunction root (min (startV2 (m :: ms)) mcV2) mcV2
        (min (startV2 ms) mcV2) :: plan root mcV2 ms
    else
      m.data.setJunction root (min (startV2 (m :: ms)) (cruiseV2 (m :: ms)))
        (cruiseV2 (m :: ms)) (min (startV2 ms) (cruiseV2 (m :: ms)))
        :: plan root (peakV2 (m :: ms)) ms

/-! ## Queues -/

/-- The limits of a move are in order. -/
structure Limits (m : Move K) : Prop where
  smoothed_nonneg : 0 ≤ m.maxSmoothedV2
  smoothed_le : m.maxSmoothedV2 ≤ m.maxStartV2
  start_le : m.maxStartV2 ≤ m.data.maxCruiseV2
  next_nonneg : 0 ≤ m.nextJunctionV2

/-- What `calc_junction` establishes between a move and the next. -/
structure Linked (prev m : Move K) : Prop where
  start_le_cruise : m.maxStartV2 ≤ prev.data.maxCruiseV2
  start_le : m.maxStartV2 ≤ prev.maxStartV2 + prev.data.deltaV2
  smoothed_le : m.maxSmoothedV2 ≤ prev.maxSmoothedV2 + prev.data.smoothDeltaV2
  smoothed_cases : m.maxSmoothedV2 = m.maxStartV2 ∨
    m.maxSmoothedV2 = prev.maxSmoothedV2 + prev.data.smoothDeltaV2

/-- A queue as `add_move` builds it. -/
structure Chained (ms : List (Move K)) : Prop where
  limits : ∀ m ∈ ms, Limits m
  linked : ms.IsChain Linked

variable {m r : Move K} {ms : List (Move K)}

theorem Chained.tail (h : Chained (m :: ms)) : Chained ms :=
  ⟨fun r hr => h.limits r (mem_cons_of_mem _ hr), h.linked.tail⟩

theorem Chained.head (h : Chained (m :: ms)) : Limits m := h.limits m mem_cons_self

theorem Chained.next (h : Chained (m :: r :: ms)) : Linked m r :=
  (isChain_cons_cons.mp h.linked).1

/-! ## Bounds -/

theorem smoothedV2_of_waits (h : Waits (m :: ms)) :
    smoothedV2 (m :: ms) = smoothedV2 ms + m.data.smoothDeltaV2 :=
  min_eq_right h

theorem smoothedV2_of_not_waits (h : ¬ Waits (m :: ms)) :
    smoothedV2 (m :: ms) = m.maxSmoothedV2 ∧
      m.maxSmoothedV2 < smoothedV2 ms + m.data.smoothDeltaV2 :=
  ⟨min_eq_left (not_le.mp h).le, not_le.mp h⟩

theorem startV2_le (m : Move K) (ms : List (Move K)) :
    startV2 (m :: ms) ≤ m.maxStartV2 := min_le_left _ _

theorem smoothedV2_le (m : Move K) (ms : List (Move K)) :
    smoothedV2 (m :: ms) ≤ m.maxSmoothedV2 := min_le_left _ _

variable [IsStrictOrderedRing K]

theorem MoveData.deltaV2_pos (d : MoveData K) : 0 < d.deltaV2 :=
  mul_pos (mul_pos two_pos d.moveD_pos) d.accel_pos

theorem smoothedV2_nonneg (h : Chained ms) : 0 ≤ smoothedV2 ms := by
  induction ms with
  | nil => exact le_refl 0
  | cons m ms ih =>
    exact le_min h.head.smoothed_nonneg (add_nonneg (ih h.tail) m.data.smoothDeltaV2_pos.le)

/-- The smoothed speed is never above the start speed. -/
theorem smoothedV2_le_startV2 (h : Chained ms) : smoothedV2 ms ≤ startV2 ms := by
  induction ms with
  | nil => exact le_refl 0
  | cons m ms ih =>
    exact min_le_min h.head.smoothed_le (add_le_add (ih h.tail) m.data.smoothDeltaV2_le)

theorem startV2_nonneg (h : Chained ms) : 0 ≤ startV2 ms :=
  (smoothedV2_nonneg h).trans (smoothedV2_le_startV2 h)

theorem smoothedV2_pos_of_waits (h : Chained ms) (hw : Waits ms) : 0 < smoothedV2 ms := by
  cases ms with
  | nil => exact hw.elim
  | cons m ms =>
    rw [smoothedV2_of_waits hw]
    exact add_pos_of_nonneg_of_pos (smoothedV2_nonneg h.tail) m.data.smoothDeltaV2_pos

/-- The next move does not start faster than this one can get. -/
theorem startV2_tail_le (h : Chained (m :: ms)) :
    startV2 ms ≤ startV2 (m :: ms) + m.data.deltaV2 := by
  have hδ := m.data.deltaV2_pos
  rw [startV2, ← min_add_add_right]
  refine le_min ?_ (by linarith)
  cases ms with
  | nil =>
    have hstart := h.head.smoothed_nonneg.trans h.head.smoothed_le
    show 0 ≤ _
    linarith
  | cons r ms => exact (startV2_le r ms).trans h.next.start_le

omit [IsStrictOrderedRing K] in
/-- Nor faster than this one may cruise. -/
theorem startV2_tail_le_cruise (h : Chained (m :: ms)) : startV2 ms ≤ m.data.maxCruiseV2 := by
  cases ms with
  | nil => exact m.data.maxCruiseV2_pos.le
  | cons r ms => exact (startV2_le r ms).trans h.next.start_le_cruise

/-- At a peak the peak speed is above the smoothed speeds on both sides. -/
theorem peakV2_of_peaks (h : Chained (m :: ms)) (hp : Peaks (m :: ms)) :
    smoothedV2 (m :: ms) ≤ peakV2 (m :: ms) ∧
      smoothedV2 ms ≤ peakV2 (m :: ms) ∧ 0 < peakV2 (m :: ms) := by
  obtain ⟨hw, hcases⟩ := hp
  obtain ⟨hsm, hlt⟩ := smoothedV2_of_not_waits hw
  have hcruise : m.maxSmoothedV2 ≤ m.data.maxCruiseV2 := h.head.smoothed_le.trans h.head.start_le
  have hnext : smoothedV2 ms ≤ m.data.maxCruiseV2 :=
    (smoothedV2_le_startV2 h.tail).trans (startV2_tail_le_cruise h)
  -- the next smoothed speed can be reached from this one
  have hreach : smoothedV2 ms ≤ m.maxSmoothedV2 + m.data.smoothDeltaV2 := by
    rcases hcases with hgt | hwn
    · rw [hsm] at hgt
      exact hgt.le
    · cases ms with
      | nil => exact hwn.elim
      | cons r ms => exact (smoothedV2_le r ms).trans h.next.smoothed_le
  have hnonneg := smoothedV2_nonneg h.tail
  have hsd := m.data.smoothDeltaV2_pos
  have hsm0 := h.head.smoothed_nonneg
  rw [peakV2, if_pos ⟨hw, hcases⟩, hsm]
  refine ⟨le_min hcruise (by linarith), le_min hnext (by linarith),
    lt_min m.data.maxCruiseV2_pos (by linarith)⟩

/-- The peak speed is not below the smoothed speed of a move that does not wait for it. -/
theorem le_peakV2 (h : Chained ms) (hne : ms ≠ []) (hw : ¬ Waits ms) :
    smoothedV2 ms ≤ peakV2 ms ∧ 0 < peakV2 ms := by
  induction ms with
  | nil => exact absurd rfl hne
  | cons m ms ih =>
    by_cases hp : Peaks (m :: ms)
    · obtain ⟨hle, -, hpos⟩ := peakV2_of_peaks h hp
      exact ⟨hle, hpos⟩
    · -- full acceleration towards a later peak
      have hnp : ¬ (smoothedV2 ms < smoothedV2 (m :: ms)
          + m.data.smoothDeltaV2 ∨ Waits ms) := fun hc => hp ⟨hw, hc⟩
      rw [not_or, not_lt] at hnp
      have hsd := m.data.smoothDeltaV2_pos
      have hsm := smoothedV2_nonneg h
      have hne' : ms ≠ [] := by
        rintro rfl
        have hzero : smoothedV2 (m :: []) + m.data.smoothDeltaV2 ≤ 0 := hnp.1
        linarith
      obtain ⟨hle, hpos⟩ := ih h.tail hne' hnp.2
      rw [peakV2, if_neg hp]
      exact ⟨by linarith [hnp.1], hpos⟩

/-- A move whose smoothed speed is not what keeps it from being faster starts
    at its junction limit, where both speeds are the same. -/
theorem smoothedV2_eq_startV2 (h : Chained (m :: ms)) (hw : ¬ Waits ms)
    (hlt : smoothedV2 ms < m.maxSmoothedV2 + m.data.smoothDeltaV2) :
    smoothedV2 ms = startV2 ms := by
  cases ms with
  | nil => rfl
  | cons r ms =>
    obtain ⟨hsm, -⟩ := smoothedV2_of_not_waits hw
    have hlimit : r.maxSmoothedV2 = r.maxStartV2 := by
      rcases h.next.smoothed_cases with heq | heq
      · exact heq
      · rw [hsm, heq] at hlt
        exact absurd hlt (lt_irrefl _)
    refine le_antisymm (smoothedV2_le_startV2 h.tail) ?_
    rw [hsm, hlimit]
    exact startV2_le r ms

/-- So does a move after a delayed one. -/
theorem smoothedV2_lt_of_waits (hw : Waits (m :: ms)) :
    smoothedV2 ms < m.maxSmoothedV2 + m.data.smoothDeltaV2 := by
  have hle : smoothedV2 ms + m.data.smoothDeltaV2 ≤ m.maxSmoothedV2 := hw
  have hsd := m.data.smoothDeltaV2_pos
  linarith

omit [IsStrictOrderedRing K] in
/-- And a move after a peak, unless it is delayed. -/
theorem smoothedV2_lt_of_peaks (hp : Peaks (m :: ms)) (hw : ¬ Waits ms) :
    smoothedV2 ms < m.maxSmoothedV2 + m.data.smoothDeltaV2 := by
  rw [← (smoothedV2_of_not_waits hp.1).1]
  exact hp.2.resolve_right hw

/-! ## Feasible junctions -/

/-- The junction is within the limits of the move, which is long enough; no division is by zero,
    no time negative. -/
structure Feasible (root : SquareRoot K) (m : Move K) (j : Junction K) : Prop where
  set : j = m.data.setJunction root j.startV2 j.cruiseV2 j.endV2
  start_nonneg : 0 ≤ j.startV2
  start_le_cruise : j.startV2 ≤ j.cruiseV2
  end_nonneg : 0 ≤ j.endV2
  end_le_cruise : j.endV2 ≤ j.cruiseV2
  cruise_pos : 0 < j.cruiseV2
  cruise_le : j.cruiseV2 ≤ m.data.maxCruiseV2
  start_le : j.startV2 ≤ m.maxStartV2
  distance : j.accelD + j.decelD ≤ m.data.moveD
  accelT_pos : 0 < j.startV + j.cruiseV
  cruiseT_pos : 0 < j.cruiseV
  decelT_pos : 0 < j.endV + j.cruiseV
  accelT_nonneg : 0 ≤ j.accelT
  cruiseT_nonneg : 0 ≤ j.cruiseT
  decelT_nonneg : 0 ≤ j.decelT

variable {root : SquareRoot K}

/-- `set_junction` with speeds that the move can reach. -/
theorem feasible_setJunction {s c e : K} (hs : 0 ≤ s) (hsc : s ≤ c)
    (he : 0 ≤ e) (hec : e ≤ c) (hc : 0 < c) (hcm : c ≤ m.data.maxCruiseV2)
    (hsm : s ≤ m.maxStartV2) (hd : 2 * c - s - e ≤ m.data.deltaV2) :
    Feasible root m (m.data.setJunction root s c e) := by
  have ha := m.data.accel_pos
  have hhalf : 0 < 1 / 2 / m.data.accel := by positivity
  have haccel : 0 ≤ (c - s) * (1 / 2 / m.data.accel) := mul_nonneg (sub_nonneg.mpr hsc) hhalf.le
  have hdecel : 0 ≤ (c - e) * (1 / 2 / m.data.accel) := mul_nonneg (sub_nonneg.mpr hec) hhalf.le
  have hdist : (c - s) * (1 / 2 / m.data.accel)
      + (c - e) * (1 / 2 / m.data.accel) ≤ m.data.moveD := by
    calc (c - s) * (1 / 2 / m.data.accel) + (c - e) * (1 / 2 / m.data.accel)
        = (2 * c - s - e) * (1 / 2 / m.data.accel) := by ring
      _ ≤ m.data.deltaV2 * (1 / 2 / m.data.accel) := mul_le_mul_of_nonneg_right hd hhalf.le
      _ = m.data.moveD := by
          rw [MoveData.deltaV2]
          field_simp
  have hcv := root.pos c hc
  have hstart := add_pos_of_nonneg_of_pos (root.nonneg s) hcv
  have hend := add_pos_of_nonneg_of_pos (root.nonneg e) hcv
  have hcruise : 0 ≤ m.data.moveD - (c - s) * (1 / 2 / m.data.accel)
      - (c - e) * (1 / 2 / m.data.accel) := by linarith
  exact ⟨rfl, hs, hsc, he, hec, hc, hcm, hsm, hdist, hstart, hcv, hend,
    div_nonneg haccel (by positivity), div_nonneg hcruise hcv.le,
    div_nonneg hdecel (by positivity)⟩

/-- Speeds cut at the cruise speed can be reached when those before the cut can. -/
theorem span_le {s e c d : K} (hc : c ≤ (s + (e + d)) * (1 / 2)) (hse : s ≤ e + d) (hes : e ≤ s + d)
    (hd : 0 < d) : 2 * c - min s c - min e c ≤ d := by
  rcases le_total s c with h | h
  · rw [min_eq_left h]
    rcases le_total e c with h' | h'
    · rw [min_eq_left h']
      linarith
    · rw [min_eq_right h']
      linarith
  · rw [min_eq_right h]
    rcases le_total e c with h' | h'
    · rw [min_eq_left h']
      linarith
    · rw [min_eq_right h']
      linarith

theorem cruiseV2_pos (h : Chained (m :: ms)) (hw : ¬ Waits (m :: ms)) : 0 < cruiseV2 (m :: ms) := by
  have hs := startV2_nonneg h
  have hs' := startV2_nonneg h.tail
  have hδ := m.data.deltaV2_pos
  refine lt_min (lt_min (by linarith) m.data.maxCruiseV2_pos) ?_
  exact (le_peakV2 h (cons_ne_nil _ _) hw).2

/-- The cruise speed before a queue is enough for its delayed moves. -/
def Carries (mcV2 : K) (ms : List (Move K)) : Prop := Waits ms → smoothedV2 ms ≤ mcV2

theorem smoothedV2_tail_le (h : Chained (m :: ms)) (hw : Waits (m :: ms))
    {mcV2 : K} (hc : Carries mcV2 (m :: ms)) : smoothedV2 ms ≤ min mcV2 (startV2 (m :: ms)) := by
  have hle : smoothedV2 ms ≤ smoothedV2 (m :: ms) := by
    rw [smoothedV2_of_waits hw]
    linarith [m.data.smoothDeltaV2_pos]
  exact hle.trans (le_min (hc hw) (smoothedV2_le_startV2 h))

theorem carries_of_not_waits (h : Chained (m :: ms))
    (hw : ¬ Waits (m :: ms)) : Carries (peakV2 (m :: ms)) ms :=
  fun hwn => (peakV2_of_peaks h ⟨hw, .inr hwn⟩).2.1

/-- **PLANS ARE FEASIBLE**, move by move. -/
theorem plan_feasible (h : Chained ms) :
    ∀ {mcV2 : K}, Carries mcV2 ms → List.Forall₂ (Feasible root) ms (plan root mcV2 ms) := by
  induction ms with
  | nil => exact fun _ => .nil
  | cons m ms ih =>
    intro mcV2 hc
    have hs := startV2_nonneg h
    have hs' := startV2_nonneg h.tail
    have hse : startV2 (m :: ms) ≤ startV2 ms + m.data.deltaV2 := min_le_right _ _
    have hes := startV2_tail_le h
    have hδ := m.data.deltaV2_pos
    have hmax := startV2_le m ms
    rw [plan]
    split
    · rename_i hw
      -- delayed: the move only slows down
      have hpos := smoothedV2_pos_of_waits h hw
      have hmc : 0 < min mcV2 (startV2 (m :: ms)) :=
        lt_of_lt_of_le hpos (le_min (hc hw) (smoothedV2_le_startV2 h))
      have hmcs := min_le_right mcV2 (startV2 (m :: ms))
      refine .cons ?_ (ih h.tail fun _ => smoothedV2_tail_le h hw hc)
      refine feasible_setJunction (le_min hs hmc.le) (min_le_right _ _)
        (le_min hs' hmc.le) (min_le_right _ _) hmc
        (hmcs.trans (hmax.trans h.head.start_le))
        ((min_le_left _ _).trans hmax)
        (span_le (by linarith) hse hes hδ)
    · rename_i hw
      have hcr := cruiseV2_pos h hw
      have hhalf : cruiseV2 (m :: ms) ≤ (startV2 (m :: ms)
          + (startV2 ms + m.data.deltaV2)) * (1 / 2) :=
        (min_le_left _ _).trans (min_le_left _ _)
      refine .cons ?_ (ih h.tail (carries_of_not_waits h hw))
      exact feasible_setJunction (le_min hs hcr.le) (min_le_right _ _)
        (le_min hs' hcr.le) (min_le_right _ _) hcr
        ((min_le_left _ _).trans (min_le_right _ _))
        ((min_le_left _ _).trans hmax) (span_le hhalf hse hes hδ)

/-! ## Continuous plans -/

/-- The junctions lead from the speed `v` to the speed `w` without a jump. -/
def Joined : K → List (Junction K) → K → Prop
  | v, [], w => v = w
  | v, j :: js, w => j.startV2 = v ∧ Joined j.endV2 js w

/-- The speed at which a plan starts. -/
def entryV2 (mcV2 : K) (ms : List (Move K)) : K :=
  min (startV2 ms) (if Waits ms then mcV2 else peakV2 ms)

omit [IsStrictOrderedRing K] in
theorem min_cruiseV2 {v : K} (hhalf : v ≤ (startV2 (m :: ms)
    + (startV2 ms + m.data.deltaV2)) * (1 / 2)) (hmax : v ≤ m.data.maxCruiseV2) :
    min v (cruiseV2 (m :: ms)) = min v (peakV2 (m :: ms)) := by
  rw [cruiseV2, ← min_assoc, min_eq_left (le_min hhalf hmax)]

section Chained

variable (h : Chained (m :: ms))
include h

/-- A move that does not wait starts at the peak speed at most. -/
theorem min_startV2_cruiseV2 :
    min (startV2 (m :: ms)) (cruiseV2 (m :: ms)) = min (startV2 (m :: ms)) (peakV2 (m :: ms)) := by
  have hse : startV2 (m :: ms) ≤ startV2 ms + m.data.deltaV2 := min_le_right _ _
  exact min_cruiseV2 (by linarith) ((startV2_le m ms).trans h.head.start_le)

/-- And ends at it at most. -/
theorem min_tail_cruiseV2 :
    min (startV2 ms) (cruiseV2 (m :: ms)) = min (startV2 ms) (peakV2 (m :: ms)) := by
  have hes := startV2_tail_le h
  exact min_cruiseV2 (by linarith) (startV2_tail_le_cruise h)

/-- A queue whose first move starts at its junction limit is entered there. -/
theorem entryV2_of_limit {v mcV2 : K} (hw : ¬ Waits ms)
    (hlt : smoothedV2 ms < m.maxSmoothedV2 + m.data.smoothDeltaV2)
    (hle : smoothedV2 ms ≤ v) : min (startV2 ms) v = entryV2 mcV2 ms := by
  rw [entryV2, if_neg hw, ← smoothedV2_eq_startV2 h hw hlt, min_eq_left hle]
  cases ms with
  | nil => exact (min_self 0).symm
  | cons r ms => exact (min_eq_left (le_peakV2 h.tail (cons_ne_nil _ _) hw).1).symm

/-- A delayed move ends where the next one starts. -/
theorem end_of_waits (hw : Waits (m :: ms)) {mcV2 : K} (hc : Carries mcV2 (m :: ms)) :
    min (startV2 ms) (min mcV2 (startV2 (m :: ms)))
      = entryV2 (min mcV2 (startV2 (m :: ms))) ms := by
  by_cases hwn : Waits ms
  · rw [entryV2, if_pos hwn]
  · exact entryV2_of_limit h hwn (smoothedV2_lt_of_waits hw) (smoothedV2_tail_le h hw hc)

/-- So does a move that is not delayed. -/
theorem end_of_cruiseV2 :
    min (startV2 ms) (cruiseV2 (m :: ms)) = entryV2 (peakV2 (m :: ms)) ms := by
  rw [min_tail_cruiseV2 h]
  by_cases hwn : Waits ms
  · rw [entryV2, if_pos hwn]
  · by_cases hp : Peaks (m :: ms)
    · -- a new peak: the next move starts at its limit, below both peaks
      exact entryV2_of_limit h hwn (smoothedV2_lt_of_peaks hp hwn) (peakV2_of_peaks h hp).2.1
    · rw [entryV2, if_neg hwn, peakV2, if_neg hp]

/-- The first junction of a plan starts where the plan is entered and ends
    where the rest of it is. -/
theorem plan_cons (root : SquareRoot K) {mcV2 : K} (hc : Carries mcV2 (m :: ms)) :
    ∃ j mcV2', plan root mcV2 (m :: ms) = j :: plan root mcV2' ms ∧
      Carries mcV2' ms ∧ j.startV2 = entryV2 mcV2 (m :: ms) ∧ j.endV2 = entryV2 mcV2' ms := by
  rw [plan]
  by_cases hw : Waits (m :: ms)
  · rw [if_pos hw]
    refine ⟨_, _, rfl, fun _ => smoothedV2_tail_le h hw hc, ?_, end_of_waits h hw hc⟩
    show min (startV2 (m :: ms)) (min mcV2 (startV2 (m :: ms))) = _
    rw [entryV2, if_pos hw, min_comm mcV2, ← min_assoc, min_self]
  · rw [if_neg hw]
    refine ⟨_, _, rfl, carries_of_not_waits h hw, ?_, end_of_cruiseV2 h⟩
    show min (startV2 (m :: ms)) (cruiseV2 (m :: ms)) = _
    rw [entryV2, if_neg hw, min_startV2_cruiseV2 h]

end Chained

/-- **PLANS ARE CONTINUOUS**: the junctions before a move that is not delayed lead to the speed
    at which the rest is entered. -/
theorem plan_joined {front rest : List (Move K)} (h : Chained (front ++ rest)) (hw : ¬ Waits rest) :
    ∀ {mcV2 : K}, Carries mcV2 (front ++ rest) →
      Joined (entryV2 mcV2 (front ++ rest)) ((plan root mcV2 (front ++ rest)).take front.length)
        (entryV2 0 rest) := by
  induction front with
  | nil =>
    intro mcV2 _
    show entryV2 mcV2 rest = entryV2 0 rest
    rw [entryV2, entryV2, if_neg hw, if_neg hw]
  | cons m front ih =>
    intro mcV2 hc
    rw [cons_append] at h hc ⊢
    obtain ⟨j, mcV2', hplan, hc', hstart, hend⟩ := plan_cons h root hc
    rw [hplan, length_cons, take_succ_cons]
    refine ⟨hstart, ?_⟩
    rw [hend]
    exact ih h.tail hc'

/-! ## More moves behind a queue -/

variable {as : List (Move K)}

omit [IsStrictOrderedRing K] in
theorem Chained.left (h : Chained (ms ++ as)) : Chained ms :=
  ⟨fun m hm => h.limits m (mem_append_left _ hm), (isChain_append.mp h.linked).1⟩

/-- More moves do not slow a queue down. -/
theorem smoothedV2_le_append (h : Chained (ms ++ as)) : smoothedV2 ms ≤ smoothedV2 (ms ++ as) := by
  induction ms with
  | nil => exact smoothedV2_nonneg h
  | cons m ms ih => exact min_le_min_left _ (add_le_add_left (ih h.tail) _)

/-- **PEAKS DECIDE**: behind a peak, more moves do not change the smoothed speeds before it. -/
theorem smoothedV2_append (h : Chained (ms ++ as)) (hp : peakV2 ms ≠ 0) :
    smoothedV2 (ms ++ as) = smoothedV2 ms ∧ (Waits (ms ++ as) ↔ Waits ms) := by
  induction ms with
  | nil => exact absurd rfl hp
  | cons m ms ih =>
    by_cases hpeak : peakV2 ms = 0
    · -- the peak is this move: it is limited by its own junction
      have hpk : Peaks (m :: ms) := by
        by_contra hnp
        rw [peakV2, if_neg hnp] at hp
        exact hp hpeak
      obtain ⟨hsm, hlt⟩ := smoothedV2_of_not_waits hpk.1
      have hle := smoothedV2_le_append h.tail
      have hw : ¬ Waits (m :: (ms ++ as)) := by
        refine not_le.mpr (lt_of_lt_of_le hlt ?_)
        exact add_le_add_left hle _
      refine ⟨(smoothedV2_of_not_waits hw).1.trans hsm.symm, ?_⟩
      exact ⟨fun hc => absurd hc hw, fun hc => absurd hc hpk.1⟩
    · obtain ⟨hsm, -⟩ := ih h.tail hpeak
      refine ⟨?_, ?_⟩
      · show min _ (smoothedV2 (ms ++ as) + _) = _
        rw [hsm]
        rfl
      · show smoothedV2 (ms ++ as) + _ ≤ _ ↔ _
        rw [hsm]
        exact Iff.rfl

/-- A first move that starts at its limit still does with more moves. -/
theorem startV2_append_of_limit (h : Chained (m :: ms ++ as)) (hp : peakV2 ms ≠ 0)
    (hw : ¬ Waits ms) (hlt : smoothedV2 ms < m.maxSmoothedV2 + m.data.smoothDeltaV2) :
    startV2 (ms ++ as) = startV2 ms := by
  obtain ⟨hsm, hwaits⟩ := smoothedV2_append h.tail hp
  have hmore : smoothedV2 (ms ++ as) = startV2 (ms ++ as) :=
    smoothedV2_eq_startV2 h (mt hwaits.mp hw) (hsm ▸ hlt)
  rw [← hmore, hsm, smoothedV2_eq_startV2 h.left hw hlt]

theorem startV2_append_of_waits (h : Chained (ms ++ as)) (hp : peakV2 ms ≠ 0) (hw : Waits ms) :
    startV2 (ms ++ as) = startV2 ms := by
  induction ms with
  | nil => exact hw.elim
  | cons m ms ih =>
    rw [peakV2, if_neg fun hpk : Peaks (m :: ms) => hpk.1 hw] at hp
    have htail : startV2 (ms ++ as) = startV2 ms := by
      by_cases hwn : Waits ms
      · exact ih h.tail hp hwn
      · exact startV2_append_of_limit h hp hwn (smoothedV2_lt_of_waits hw)
    show min _ (startV2 (ms ++ as) + _) = _
    rw [htail]
    rfl

/-- **PEAKS BEFORE PEAKS ARE FINAL**: such a queue is entered at the same speed whatever is
    added. -/
theorem entryV2_append (h : Chained (m :: ms ++ as)) (hp : Peaks (m :: ms))
    (hpeak : peakV2 ms ≠ 0) (mcV2 mcV2' : K) :
    ¬ Waits (m :: ms ++ as) ∧ entryV2 mcV2 (m :: ms ++ as) = entryV2 mcV2' (m :: ms) := by
  obtain ⟨hsm, hwaits⟩ := smoothedV2_append h.tail hpeak
  have hstart : startV2 (ms ++ as) = startV2 ms := by
    by_cases hwn : Waits ms
    · exact startV2_append_of_waits h.tail hpeak hwn
    · exact startV2_append_of_limit h hpeak hwn (smoothedV2_lt_of_peaks hp hwn)
  have hhead : smoothedV2 (m :: ms ++ as) = smoothedV2 (m :: ms) := by
    show min _ (smoothedV2 (ms ++ as) + _) = _
    rw [hsm]
    rfl
  have hw : ¬ Waits (m :: ms ++ as) := by
    show ¬ smoothedV2 (ms ++ as) + _ ≤ _
    rw [hsm]
    exact hp.1
  have hp' : Peaks (m :: ms ++ as) := by
    refine ⟨hw, hp.2.imp ?_ hwaits.mpr⟩
    intro hlt
    show smoothedV2 (ms ++ as) < smoothedV2 (m :: ms ++ as) + _
    rw [hsm, hhead]
    exact hlt
  refine ⟨hw, ?_⟩
  rw [entryV2, entryV2, if_neg hw, if_neg hp.1]
  have hpk : peakV2 (m :: ms ++ as) = peakV2 (m :: ms) := by
    show (if Peaks (m :: ms ++ as) then min _ ((smoothedV2 (m :: ms ++ as)
      + (smoothedV2 (ms ++ as) + _)) * _) else _) = _
    rw [if_pos hp', peakV2, if_pos hp, hhead, hsm]
  have hst : startV2 (m :: ms ++ as) = startV2 (m :: ms) := by
    show min _ (startV2 (ms ++ as) + _) = _
    rw [hstart]
    rfl
  rw [hpk, hst]

end Lookahead
