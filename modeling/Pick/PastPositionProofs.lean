import Pick.QuadraticRootProofs
import Pick.StepHostProofs

/-! # Past positions

`stepcompress_find_past_position` looks up, in the history that `add_move` keeps,
where the stepper was at a clock.  Within a move it inverts the quadratic sequence of
the steps.  Words are 32 bits wide as in the source, and every operation on doubles is
rounded but for the square root, which is exact.

The formula is right as long as `b * b - 4 * a * c` needs no more than the 53 bits of a
double.  Beyond that the count may be off, but no operation fails. -/

namespace Stepcompress

open Double List Quadratic Ramp

variable {K : Type} [Field K] [LinearOrder K] [FloorRing K]

/-! ## Model -/

/-- Arithmetic that is not defined. -/
inductive MathError where
  | divideByZero
  | negativeRoot
  deriving DecidableEq

/-- The quadratic formula for the count of the steps. -/
def quadraticCount (root : ExactRoot K) (interval add ticks : ℤ) : Except MathError ℤ :=
  let a : K := rounded (1 / 2 * add)
  let b : K := rounded (interval - rounded (1 / 2 * add : K))
  let c : K := -ticks
  let d := rounded (rounded (b * b) - rounded (rounded (4 * a) * c))
  if d < 0 then .error .negativeRoot
  else if rounded (2 * a) = 0 then .error .divideByZero
  else .ok (truncate (rounded (rounded (root.sqrt d - b) / rounded (2 * a))))

/-- The `offset` of a clock within a move. -/
def HistorySteps.offset (root : ExactRoot K) (hs : HistorySteps) (clock : Nat) :
    Except MathError Int32 :=
  let interval := hs.interval.toInt32
  let add := hs.add.toInt32
  let ticks := (UInt32.ofNat (clock - hs.firstClock)).toInt32 + interval
  if add = 0 then
    if interval = 0 then .error .divideByZero else .ok (ticks / interval)
  else (quadraticCount root interval.toInt add.toInt ticks.toInt).map Int32.ofInt

/-- The loop of `stepcompress_find_past_position`. -/
def findPast (root : ExactRoot K) (clock : Nat) :
    List HistorySteps → (lastPosition : Int) → Except MathError Int
  | [], lastPosition => .ok lastPosition
  | hs :: history, _ =>
    if clock < hs.firstClock then findPast root clock history hs.startPosition
    else if clock ≥ hs.lastClock then .ok (hs.startPosition + hs.stepCount)
    else (hs.offset root clock).map fun offset =>
      if hs.stepCount < 0 then hs.startPosition - offset.toInt
      else hs.startPosition + offset.toInt

/-- `stepcompress_find_past_position`. -/
def findPastPosition (root : ExactRoot K) (clock : Nat) (sc : State) : Except MathError Int :=
  findPast root clock sc.historyList sc.lastPosition

/-- The move is over. -/
def HistorySteps.expired (endClock : Nat) (hs : HistorySteps) : Bool := hs.lastClock ≤ endClock

/-- `stepcompress_history_expire`. -/
def historyExpire (endClock : Nat) (sc : State) : State :=
  { sc with
    historyList := (sc.historyList.reverse.dropWhile (HistorySteps.expired endClock)).reverse }

/-! ## What is to be shown -/

/-- The clocks of the steps of a move. -/
def Entry.clocks (e : Entry) : List ℤ :=
  ramp e.move.add.toInt e.move.count.toNat (e.firstClock - e.move.interval.toNat)
    e.move.interval.toNat

/-- The signed number of steps whose clock is at most `clock`. -/
def Entry.stepsBy (clock : Nat) (e : Entry) : ℤ :=
  e.signed (e.clocks.countP fun c : ℤ => decide (c ≤ clock))

/-- The steps of all moves up to a clock. -/
def stepsBy (clock : Nat) (es : List Entry) : ℤ := (es.map (Entry.stepsBy clock)).sum

/-- If the clock is within the move, four times `b * b` and four times `b * b - 4 * a * c`
    have no more than 53 bits. -/
def Entry.Fits (clock : Nat) (e : Entry) : Prop :=
  e.firstClock ≤ clock → clock < e.lastClock → e.move.add ≠ 0 →
    (2 * e.move.interval.toNat - e.move.add.toInt) ^ 2 ≤ 2 ^ 53 ∧
      (2 * e.move.interval.toNat - e.move.add.toInt) ^ 2 +
        8 * e.move.add.toInt * (clock - e.firstClock + e.move.interval.toNat) ≤ 2 ^ 53

/-! ## The quadratic formula -/

variable [IsStrictOrderedRing K]

section Formula

variable {add interval t : ℤ} {m n : Nat} (root : ExactRoot K)

/-- The operations that are exact for all words. -/
theorem quadraticCount_eq (hinterval : |interval| ≤ 2 ^ 31) (hadd : |add| ≤ 2 ^ 15)
    (ht : |t| ≤ 2 ^ 31) (hne : add ≠ 0) :
    let b : K := interval - 1 / 2 * add
    let d := rounded (rounded (b * b) + 2 * add * t)
    IsDouble (-(2 * add * t) : K) ∧ quadraticCount root interval add t =
      if d < 0 then .error .negativeRoot
      else .ok (truncate (rounded (rounded (root.sqrt d - b) / add))) := by
  intro b d
  have hinterval' := abs_le.mp hinterval
  have hadd' := abs_le.mp hadd
  have ha : rounded (1 / 2 * add : K) = 1 / 2 * add :=
    IsDouble.rounded_eq ⟨add, -1, by omega, by decide, by ring⟩
  have hb : rounded (interval - 1 / 2 * add : K) = b :=
    IsDouble.rounded_eq ⟨2 * interval - add, -1, abs_le.mpr ⟨by omega, by omega⟩, by decide,
      by push_cast; ring⟩
  have htwice : rounded (4 * (1 / 2 * add) : K) = 2 * add :=
    (IsDouble.rounded_eq ⟨2 * add, 0, abs_le.mpr ⟨by omega, by omega⟩, by decide,
      by push_cast; ring⟩).trans (by ring)
  have hone : rounded (2 * (1 / 2 * add) : K) = add :=
    (IsDouble.rounded_eq ⟨add, 0, by omega, by decide, by ring⟩).trans (by ring)
  have hproduct : IsDouble (-(2 * add * t) : K) := by
    refine ⟨-(2 * add * t), 0, ?_, by decide, by push_cast; ring⟩
    have hmul := mul_le_mul hadd ht (abs_nonneg t) (by decide)
    rw [← abs_mul] at hmul
    rw [abs_neg, mul_assoc, abs_mul]
    exact (mul_le_mul_of_nonneg_left hmul (abs_nonneg 2)).trans (by decide)
  refine ⟨hproduct, ?_⟩
  rw [quadraticCount, ha, hb, htwice, hone, mul_neg, hproduct.rounded_eq, sub_neg_eq_add,
    if_neg (Int.cast_ne_zero.mpr hne)]

/-- A quotient that stays away from the next integer does not get there by rounding. -/
theorem truncate_quotient {a x : K} (ha : 1 ≤ |a|) (hproduct : IsDouble (a * m))
    (hm : m < 2 ^ 16) (hle : m ≤ x) (hgap : x ≤ m + 1 - 1 / 2 ^ 27) :
    truncate (rounded (rounded (a * x) / a)) = m := by
  have hm' : (m : K) + 1 ≤ 2 ^ 16 := by exact_mod_cast hm
  have hnonneg : (0 : K) ≤ x := (Nat.cast_nonneg m).trans hle
  have hlow : (m : K) ≤ rounded (a * x) / a := by
    rcases lt_trichotomy a 0 with hneg | rfl | hpos
    · rw [le_div_iff_of_neg hneg, mul_comm (m : K)]
      exact hproduct.rounded_le (mul_le_mul_of_nonpos_left hle hneg.le)
    · norm_num at ha
    · rw [le_div_iff₀ hpos, mul_comm (m : K)]
      exact hproduct.le_rounded (mul_le_mul_of_nonneg_left hle hpos.le)
  have hhigh : rounded (a * x) / a ≤ m + 1 - 1 / 2 ^ 28 := by
    have herror := (abs_le.mp (abs_rounded_div_sub_le ha x)).2
    have htiny : (2 : K) ^ (-1075 : ℤ) ≤ 2 ^ (-40 : ℤ) := zpow_le_zpow_right₀ one_le_two (by decide)
    rw [abs_of_nonneg hnonneg] at herror
    generalize (2 : K) ^ (-1075 : ℤ) = tiny at herror htiny
    norm_num at herror htiny hgap hm' ⊢
    linarith
  have hcount : IsDouble (m : K) := by
    rw [← Int.cast_natCast]
    exact isDouble_int (by rw [Nat.abs_cast]; omega)
  have hbound : IsDouble (m + 1 - 1 / 2 ^ 28 : K) :=
    ⟨2 ^ 28 * (m + 1) - 1, -28, abs_le.mpr ⟨by omega, by omega⟩, by decide, by
      push_cast
      ring⟩
  refine truncate_eq (hcount.le_rounded hlow) ((hbound.rounded_le hhigh).trans_lt ?_)
  norm_num

/-- **THE FORMULA** never fails, and gives the count if its doubles are exact. -/
theorem quadraticCount_of_fits (hinterval : interval < 2 ^ 31) (hadd : |add| ≤ 2 ^ 15)
    (ht : |t| ≤ 2 ^ 31) (hne : add ≠ 0) (hm : m < 2 ^ 16) (hrises : Rises add interval n)
    (hmn : m ≤ n) (hends : EndsAt add interval t m) :
    ∃ count, quadraticCount root interval add t = .ok count ∧
      ((2 * interval - add) ^ 2 ≤ 2 ^ 53 →
        (2 * interval - add) ^ 2 + 8 * add * t ≤ 2 ^ 53 → count = m) := by
  have hinterval' : |interval| ≤ 2 ^ 31 := abs_le.mpr ⟨by linarith [hrises.first], hinterval.le⟩
  obtain ⟨hproduct, heq⟩ := quadraticCount_eq root hinterval' hadd ht hne
  obtain ⟨hdisc, hle, hlt⟩ := root_between root hrises hne hmn hends
  have hgap := root_gap root hrises hne hmn hends
  set b : K := interval - 1 / 2 * add
  have hnonneg : 0 ≤ rounded (rounded (b * b) + 2 * add * t) :=
    isDouble_zero.le_rounded (by linarith [hproduct.le_rounded (x := b * b) (by linarith)])
  rw [if_neg (not_lt.mpr hnonneg)] at heq
  refine ⟨_, heq, fun hfits hfits' => ?_⟩
  have hsquare : IsDouble (b * b) :=
    ⟨(2 * interval - add) ^ 2, -2, by rwa [abs_of_nonneg (sq_nonneg _)], by decide, by
      push_cast
      ring⟩
  have hquarter : (((2 * interval - add) ^ 2 + 8 * add * t : ℤ) : K) =
      4 * (b * b + 2 * add * t) := by
    push_cast
    ring
  have hpos : 0 ≤ (2 * interval - add) ^ 2 + 8 * add * t := by
    rw [← Int.cast_nonneg_iff (R := K), hquarter]
    linarith
  have hsum : IsDouble (b * b + 2 * add * t) :=
    ⟨(2 * interval - add) ^ 2 + 8 * add * t, -2, by rwa [abs_of_nonneg hpos], by decide, by
      rw [hquarter]
      ring⟩
  rw [hsquare.rounded_eq, hsum.rounded_eq]
  have hadd' := abs_le.mp hadd
  have hroot : root.sqrt (b * b + 2 * add * t) ≤ 2 ^ 26 := by
    rw [root.sqrt_le_iff (by norm_num) hdisc]
    have hfits'' : (((2 * interval - add) ^ 2 + 8 * add * t : ℤ) : K) ≤ (2 ^ 53 : ℤ) :=
      Int.cast_le.mpr hfits'
    rw [hquarter] at hfits''
    norm_num at hfits'' ⊢
    linarith
  have hslope : |(add : K)| ≤ 2 ^ 15 := by exact_mod_cast hadd
  have hne' : (add : K) ≠ 0 := Int.cast_ne_zero.mpr hne
  rw [show root.sqrt (b * b + 2 * add * t) - b =
    add * ((root.sqrt (b * b + 2 * add * t) - b) / add) from (mul_div_cancel₀ _ hne').symm]
  refine truncate_quotient (by exact_mod_cast Int.one_le_abs hne) ?_ hm hle ?_
  · refine ⟨add * m, 0, ?_, by decide, by push_cast; ring⟩
    have hmul := mul_le_mul hadd (show |(m : ℤ)| ≤ 2 ^ 16 by rw [Nat.abs_cast]; omega)
      (abs_nonneg _) (by decide)
    rw [← abs_mul] at hmul
    exact hmul.trans (by decide)
  · have hbound : (1 : K) ≤ (m + 1 - (root.sqrt (b * b + 2 * add * t) - b) / add) * 2 ^ 27 :=
      hgap.trans (mul_le_mul_of_nonneg_left (by norm_num at hroot hslope ⊢; linarith) (by linarith))
    norm_num at hbound ⊢
    linarith

end Formula

/-! ## One move -/

variable {sc : State} {e : Entry} {es : List Entry} {p : ℤ} {clock : Nat}

/-- The steps of a move as integers: no interval is negative, `ticks` is right, and nothing
    wraps. -/
structure Entry.Exact (e : Entry) (n : Nat) : Prop where
  count : e.move.count.toNat = n + 1
  rises : Rises e.move.add.toInt e.move.interval.toNat n
  ticks : (e.move.ticks.toNat : ℤ) =
    value e.move.add.toInt e.move.interval.toNat (n + 1) - e.move.interval.toNat
  near : n ≠ 0 → value e.move.add.toInt e.move.interval.toNat (n + 1) < 2 ^ 31

theorem stop_eq_value (add : ℤ) (n : Nat) (clock interval : ℤ) :
    stop add n clock interval = clock + value add interval n := by
  rw [stop_eq, value, nsmul_eq_mul, nsmul_eq_mul]
  ring

/-- What `check_line` accepts. -/
theorem Entry.Line.exact {ts : List Nat} (h : e.Line sc ts) : ∃ n, e.Exact n := by
  obtain ⟨hfollows, n, hn, hlast⟩ := checkLine_ramp h.pending h.count_le h.ok
  obtain ⟨-, -, hstop⟩ := checkLine_follows h.pending h.count_le h.ok
  have hnear := h.pending.stop_near hfollows
  rw [hn] at hstop hnear
  rw [getLastD_ramp, stop_eq_value] at hnear
  rw [stop_eq_value] at hstop
  rw [after_eq, nsmul_eq_mul] at hlast
  have hmax : clockDiffMax < 2 ^ 31 := by decide
  refine ⟨n, hn, ⟨Int.natCast_nonneg _, ?_⟩, ?_, fun _ => ?_⟩
  · rw [mul_comm]
    exact hlast
  · push_cast at hstop
    linarith
  · omega

theorem exact_of_single (hone : e.move.count = 1) : e.Exact 0 := by
  refine ⟨?_, ⟨Int.natCast_nonneg _, ?_⟩, ?_, fun hne => absurd rfl hne⟩
  · rw [hone]
    rfl
  · rw [Nat.cast_zero, mul_zero, add_zero]
    exact Int.natCast_nonneg _
  · rw [ticks_of_single hone, value_one, sub_self]
    rfl

theorem Entry.Made.exact (h : e.Made) : ∃ n, e.Exact n := by
  rcases h with hone | ⟨sc, ts, hline⟩
  · exact ⟨0, exact_of_single hone⟩
  · exact hline.exact

namespace Entry.Exact

variable {n : Nat}

theorem clocks_eq (h : e.Exact n) : e.clocks = (List.range (n + 1)).map fun k =>
    (e.firstClock - e.move.interval.toNat : ℤ) +
      value e.move.add.toInt e.move.interval.toNat (k + 1) := by
  rw [Entry.clocks, h.count, ramp_eq_map]

theorem lastClock_eq (h : e.Exact n) : (e.lastClock : ℤ) = e.firstClock - e.move.interval.toNat +
    value e.move.add.toInt e.move.interval.toNat (n + 1) := by
  rw [Entry.lastClock]
  push_cast
  linarith [h.ticks]

theorem clocks_between (h : e.Exact n) {c : ℤ} (hc : c ∈ e.clocks) :
    e.firstClock ≤ c ∧ c ≤ e.lastClock := by
  rw [h.clocks_eq] at hc
  obtain ⟨k, hk, rfl⟩ := mem_map.mp hc
  have hk' := mem_range.mp hk
  have hfirst := h.rises.value_le (k := 1) (m := k + 1) (by omega) (by omega)
  have hlast := h.rises.value_le (k := k + 1) (m := n + 1) (by omega) (by omega)
  rw [value_one] at hfirst
  rw [h.lastClock_eq]
  exact ⟨by linarith, by linarith⟩

theorem stepsBy_before (h : e.Exact n) (hclock : clock < e.firstClock) : e.stepsBy clock = 0 := by
  have hzero : e.clocks.countP (fun c : ℤ => decide (c ≤ clock)) = 0 := by
    refine countP_eq_zero.mpr fun c hc => ?_
    have hbetween := h.clocks_between hc
    rw [decide_eq_true_eq]
    omega
  rw [Entry.stepsBy, hzero, Entry.signed]
  split
  · rfl
  · rfl

theorem stepsBy_after (h : e.Exact n) (hclock : e.lastClock ≤ clock) :
    e.stepsBy clock = e.stepCount := by
  have hall : e.clocks.countP (fun c : ℤ => decide (c ≤ clock)) = e.clocks.length := by
    refine countP_eq_length.mpr fun c hc => decide_eq_true ?_
    have hbetween := h.clocks_between hc
    omega
  rw [Entry.stepsBy, hall, h.clocks_eq, length_map, length_range, ← h.count]
  rfl

/-- The ticks since the step before the move, without wrapping. -/
theorem toInt_ticks (h : e.Exact n) (hlo : e.firstClock ≤ clock) (hhi : clock < e.lastClock) :
    e.move.interval.toInt32.toInt = e.move.interval.toNat ∧
      ((UInt32.ofNat (clock - e.firstClock)).toInt32 + e.move.interval.toInt32).toInt =
        (clock : ℤ) - e.firstClock + e.move.interval.toNat := by
  have hlast := h.lastClock_eq
  have hn : n ≠ 0 := by
    rintro rfl
    rw [value_one] at hlast
    omega
  have hnear := h.near hn
  have hfirst := h.rises.value_le (k := 1) (m := n + 1) (by omega) le_rfl
  rw [value_one] at hfirst
  have hinterval : e.move.interval.toInt32.toInt = e.move.interval.toNat := by
    rw [Words.toInt_toInt32, if_pos (by omega)]
  have hword : (UInt32.ofNat (clock - e.firstClock)).toInt32.toInt =
      (clock : ℤ) - e.firstClock := by
    have hnat : (UInt32.ofNat (clock - e.firstClock)).toNat = clock - e.firstClock :=
      UInt32.toNat_ofNat_of_lt' (by show _ < 2 ^ 32; omega)
    rw [Words.toInt_toInt32, if_pos (by omega), hnat]
    omega
  refine ⟨hinterval, ?_⟩
  rw [Int32.toInt_add, hword, hinterval]
  exact Int.bmod_eq_of_le (by omega) (by omega)

end Entry.Exact

theorem toInt32_eq_zero {a : Int16} (h : a.toInt32 = 0) : a.toInt = 0 := by
  rw [← Int16.toInt_toInt32, h]
  rfl

section Offset

variable (hs : HistorySteps) {interval t : ℤ} {m n : Nat}
  (hinterval : hs.interval.toInt32.toInt = interval)
  (hticks : ((UInt32.ofNat (clock - hs.firstClock)).toInt32 + hs.interval.toInt32).toInt = t)
  (hends : EndsAt hs.add.toInt interval t m) (hm : m < 2 ^ 16)

include hinterval hticks hends hm

omit [IsStrictOrderedRing K] in
theorem offset_of_even (root : ExactRoot K) (hpos : 0 ≤ interval) (hadd : hs.add.toInt32 = 0) :
    ∃ offset, hs.offset root clock = .ok offset ∧ offset.toInt = m := by
  have hle := hends.le
  have hlt := hends.lt
  rw [toInt32_eq_zero hadd, value, zero_mul, zero_add] at hle hlt
  push_cast at hlt
  have hne : interval ≠ 0 := by
    intro hzero
    rw [hzero, zero_mul] at hle hlt
    omega
  have hword : hs.interval.toInt32 ≠ 0 := by
    intro hzero
    rw [hzero] at hinterval
    exact hne hinterval.symm
  have hdiv : t.tdiv interval = m := by
    have hnonneg : 0 ≤ t := (mul_nonneg hpos (Int.natCast_nonneg m)).trans hle
    rw [Int.tdiv_eq_ediv_of_nonneg hnonneg]
    have hpos' : 0 < interval := lt_of_le_of_ne hpos hne.symm
    refine le_antisymm (Int.lt_add_one_iff.mp ?_) ?_
    · exact Int.ediv_lt_of_lt_mul hpos' (by linarith)
    · exact (Int.le_ediv_iff_mul_le hpos').mpr (by linarith)
  rw [HistorySteps.offset, if_pos hadd, if_neg hword]
  refine ⟨_, rfl, ?_⟩
  rw [Int32.toInt_div, hticks, hinterval, hdiv]
  exact Int.bmod_eq_of_le (by omega) (by omega)

theorem offset_of_root (root : ExactRoot K) (hrises : Rises hs.add.toInt interval n)
    (hmn : m ≤ n) (hadd : hs.add.toInt32 ≠ 0) :
    ∃ offset, hs.offset root clock = .ok offset ∧
      ((2 * interval - hs.add.toInt) ^ 2 ≤ 2 ^ 53 →
        (2 * interval - hs.add.toInt) ^ 2 + 8 * hs.add.toInt * t ≤ 2 ^ 53 → offset.toInt = m) := by
  have hne : hs.add.toInt ≠ 0 := fun hzero =>
    hadd (Int32.toInt_inj.mp ((Int16.toInt_toInt32 _).trans hzero))
  obtain ⟨count, hcount, hfits⟩ := quadraticCount_of_fits root (t := t)
    (hinterval ▸ hs.interval.toInt32.toInt_lt)
    (abs_le.mpr ⟨hs.add.le_toInt, hs.add.toInt_lt.le⟩)
    (abs_le.mpr (hticks ▸ ⟨Int32.le_toInt _, (Int32.toInt_lt _).le⟩)) hne hm hrises hmn hends
  refine ⟨Int32.ofInt count, ?_, fun h h' => ?_⟩
  · rw [HistorySteps.offset, if_neg hadd, hticks, hinterval, Int16.toInt_toInt32, hcount]
    rfl
  · rw [hfits h h']
    exact Int32.toInt_ofInt_of_le (by omega) (by omega)

end Offset

/-- **THE OFFSET** within a move is the number of its steps up to the clock. -/
theorem offset_eq (root : ExactRoot K) {n : Nat} (h : e.Exact n) (hlo : e.firstClock ≤ clock)
    (hhi : clock < e.lastClock) :
    ∃ offset, (e.history p).offset root clock = .ok offset ∧ (e.Fits clock →
      offset.toInt = (e.clocks.countP fun c : ℤ => decide (c ≤ clock) : Nat)) := by
  obtain ⟨hinterval, hticks⟩ := h.toInt_ticks hlo hhi
  have hlast := h.lastClock_eq
  have hcount := e.move.count.toNat_lt
  rw [h.count] at hcount
  -- `t` counts from the step before the move, as the sequence does
  generalize ht : (clock : ℤ) - e.firstClock + e.move.interval.toNat = t at hticks
  obtain ⟨m, hmn, hends⟩ : ∃ m, m ≤ n ∧ EndsAt e.move.add.toInt e.move.interval.toNat t m :=
    exists_endsAt (by omega) (by omega)
  have hcountP : (e.clocks.countP fun c : ℤ => decide (c ≤ clock)) = m := by
    have hramp := h.rises.countP_ramp hmn hends (e.firstClock - e.move.interval.toNat)
    rw [Entry.clocks, h.count]
    rw [show (e.firstClock - e.move.interval.toNat : ℤ) + t = clock by omega] at hramp
    exact hramp
  rw [hcountP]
  by_cases hadd : e.move.add.toInt32 = 0
  · obtain ⟨offset, hok, heq⟩ := offset_of_even (e.history p) hinterval hticks hends
      (by omega) root (Int.natCast_nonneg _) hadd
    exact ⟨offset, hok, fun _ => heq⟩
  · obtain ⟨offset, hok, heq⟩ := offset_of_root (e.history p) hinterval hticks hends
      (by omega) root h.rises hmn hadd
    refine ⟨offset, hok, fun hfits => ?_⟩
    obtain ⟨hsquare, hsum⟩ := hfits hlo hhi fun hzero => hadd (by rw [hzero]; rfl)
    rw [ht] at hsum
    exact heq hsquare hsum

/-! ## Expiry -/

theorem dropWhile_chronicle (f : HistorySteps → Bool) (p : ℤ) (es : List Entry) :
    ∃ p' es', es' <:+ es ∧ (chronicle p es).dropWhile f = chronicle p' es' ∧
      p' + stepTotal es' = p + stepTotal es := by
  induction es generalizing p with
  | nil => exact ⟨p, [], suffix_refl _, rfl, rfl⟩
  | cons e es ih =>
    by_cases hf : f (e.history p) = true
    · obtain ⟨p', es', hsuffix, hdrop, htotal⟩ := ih (p + e.stepCount)
      refine ⟨p', es', hsuffix.trans (suffix_cons e es), ?_, ?_⟩
      · rw [chronicle, dropWhile_cons_of_pos hf, hdrop]
      · rw [htotal, stepTotal_cons, add_assoc]
    · exact ⟨p, e :: es, suffix_refl _, dropWhile_cons_of_neg hf, rfl⟩

/-- **EXPIRY** leaves the history of the moves that are not expired. -/
theorem History.historyExpire (endClock : Nat) (h : History p es sc) :
    ∃ p' es', es' <:+ es ∧ History p' es' (historyExpire endClock sc) := by
  obtain ⟨p', es', hsuffix, hdrop, htotal⟩ :=
    dropWhile_chronicle (HistorySteps.expired endClock) p es
  refine ⟨p', es', hsuffix, ?_, h.position.trans htotal.symm,
    fun e he => h.made e (hsuffix.subset he), h.ordered.sublist hsuffix.sublist⟩
  show (sc.historyList.reverse.dropWhile _).reverse = _
  rw [h.history, reverse_reverse, hdrop]

/-! ## The search -/

theorem stepsBy_append (clock : Nat) (es : List Entry) (e : Entry) :
    stepsBy clock (es ++ [e]) = stepsBy clock es + e.stepsBy clock := by
  rw [stepsBy, map_append, sum_append, map_singleton, sum_singleton]
  rfl

/-- All steps are done when the last move is. -/
theorem stepsBy_of_later (hmade : ∀ e ∈ es, e.Made)
    (hlater : ∀ e ∈ es, e.lastClock ≤ clock) : stepsBy clock es = stepTotal es := by
  rw [stepsBy, stepTotal]
  refine congrArg List.sum (map_congr_left fun e he => ?_)
  obtain ⟨n, hn⟩ := (hmade e he).exact
  exact hn.stepsBy_after (hlater e he)

theorem findPast_within (root : ExactRoot K) {rest : List HistorySteps} {q : ℤ} {n : Nat}
    (hn : e.Exact n) (h : ¬ clock < e.firstClock) (h' : ¬ e.lastClock ≤ clock) :
    ∃ r, findPast root clock (e.history p :: rest) q = .ok r ∧
      (e.Fits clock → r = p + e.stepsBy clock) := by
  obtain ⟨offset, hoffset, hcount⟩ := offset_eq root (p := p) hn (not_lt.mp h) (not_le.mp h')
  refine ⟨if e.stepCount < 0 then p - offset.toInt else p + offset.toInt, ?_, fun hfits => ?_⟩
  · refine ((if_neg h).trans (if_neg h')).trans ?_
    rw [hoffset]
    rfl
  have hpos := hn.count
  rw [hcount hfits, Entry.stepCount, Entry.stepsBy, Entry.signed, Entry.signed]
  cases e.up with
  | true => rw [if_neg (by simp), if_pos rfl]
  | false => rw [if_pos (by simp [hpos]; omega), if_neg Bool.false_ne_true, sub_eq_add_neg]

theorem findPast_chronicle (root : ExactRoot K) (clock : Nat) (p : ℤ) (es : List Entry)
    (hmade : ∀ e ∈ es, e.Made) (hordered : es.Pairwise fun e e' => e.lastClock ≤ e'.firstClock) :
    ∃ r, findPast root clock (chronicle p es).reverse (p + stepTotal es) = .ok r ∧
      ((∀ e ∈ es, e.Fits clock) → r = p + stepsBy clock es) := by
  induction es using List.reverseRecOn with
  | nil => exact ⟨_, rfl, fun _ => rfl⟩
  | append_singleton es e ih =>
    obtain ⟨hold, -, hlater⟩ := pairwise_append.mp hordered
    obtain ⟨hmade', hlast⟩ := forall_mem_append.mp hmade
    obtain ⟨n, hn⟩ := (forall_mem_singleton.mp hlast).exact
    rw [chronicle_append, reverse_append, reverse_singleton, singleton_append, stepsBy_append]
    by_cases hbefore : clock < e.firstClock
    · obtain ⟨r, hr, heq⟩ := ih hmade' hold
      refine ⟨r, (if_pos hbefore).trans hr, fun hfits => ?_⟩
      rw [heq fun e' he' => hfits e' (mem_append_left _ he'), hn.stepsBy_before hbefore, add_zero]
    -- the moves before this one are done
    have hdone : stepsBy clock es = stepTotal es := stepsBy_of_later hmade' fun e' he' =>
      (hlater e' he' e (mem_singleton_self e)).trans (not_lt.mp hbefore)
    rw [hdone, ← add_assoc]
    by_cases hafter : e.lastClock ≤ clock
    · refine ⟨p + stepTotal es + e.stepCount, (if_neg hbefore).trans (if_pos hafter), fun _ => ?_⟩
      rw [hn.stepsBy_after hafter]
    · obtain ⟨r, hr, heq⟩ := findPast_within root hn hbefore hafter
      exact ⟨r, hr, fun hfits => heq (hfits e (by simp))⟩

/-- **PAST POSITIONS ARE EXACT**: for every history and every clock there is a result, the start
    position plus the steps up to the clock if the doubles of its move are exact. -/
theorem past_position_exact (root : ExactRoot K) (h : History p es sc) (clock : Nat) :
    ∃ r, findPastPosition root clock sc = .ok r ∧
      ((∀ e ∈ es, e.Fits clock) → r = p + stepsBy clock es) := by
  rw [findPastPosition, h.history, h.position]
  exact findPast_chronicle root clock p es h.made h.ordered

/-! ## Real numbers -/

/-- The square root of real numbers. -/
noncomputable def realRoot : ExactRoot ℝ where
  sqrt := Real.sqrt
  nonneg := fun x _ => Real.sqrt_nonneg x
  mul_self := fun _ hx => Real.mul_self_sqrt hx

/-- Four steps with falling intervals: 1000, 1900, 2700 and 3400. -/
def fallingMove : StepMove := ⟨1000, 4, -100⟩

/-- A queue with a falling interval. -/
def fourSteps : State := { alloc 25 false 0 with queue := [1000, 1900, 2700, 3400] }

theorem line_fourSteps : Entry.Line ⟨1000, fallingMove, true⟩ fourSteps
    [1000, 1900, 2700, 3400] := by
  refine ⟨⟨by decide, ?_, fun t _ => Nat.zero_le t, by decide⟩, by decide, by decide⟩
  exact isChain_iff_pairwise.mpr (by decide)

theorem past_position_exact_falling :
    History 0 [⟨1000, fallingMove, true⟩] (addMove fourSteps 1000 fallingMove) ∧
      findPastPosition realRoot 2000 (addMove fourSteps 1000 fallingMove) = .ok 2 := by
  have hhistory : History 0 [⟨1000, fallingMove, true⟩] (addMove fourSteps 1000 fallingMove) :=
    (show History 0 [] fourSteps from ⟨rfl, rfl, nofun, Pairwise.nil⟩).addMove rfl
      (.inr ⟨_, _, line_fourSteps⟩) nofun
  obtain ⟨r, hr, heq⟩ := past_position_exact realRoot hhistory 2000
  refine ⟨hhistory, hr.trans (congrArg Except.ok (heq ?_))⟩
  exact forall_mem_singleton.mpr fun _ _ _ => by decide

/-- Two steps, so far apart that `b * b` has 55 bits. -/
def slowMove : StepMove := ⟨200000004, 2, 1⟩

/-- A queue with long intervals. -/
def twoSteps : State := { alloc 25 false 0 with queue := [200000004, 400000009] }

/-- `b * b` is 40000001400000012.25 and is rounded up by 3.75, so that the root passes
    the next step a tick too early. -/
theorem quadraticCount_slow : quadraticCount realRoot 200000004 1 400000008 = .ok 2 := by
  obtain ⟨-, heq⟩ := @quadraticCount_eq ℝ _ _ _ _ 1 200000004 400000008 realRoot (by decide)
    (by decide) (by decide) (by decide)
  have hsquare : rounded ((((200000004 : ℤ) : ℝ) - 1 / 2 * (1 : ℤ)) *
      ((200000004 : ℤ) - 1 / 2 * (1 : ℤ))) = (5000000175000002 : ℤ) * 2 ^ (3 : ℤ) :=
    rounded_eq_of_near (by decide) (by norm_num) (by norm_num) (by norm_num [abs_lt])
  have hsum : rounded ((5000000175000002 : ℤ) * 2 ^ (3 : ℤ) +
      2 * (1 : ℤ) * (400000008 : ℤ) : ℝ) = 40000002200000032 :=
    (IsDouble.rounded_eq ⟨5000000275000004, 3, by decide, by decide, by norm_num⟩).trans
      (by norm_num)
  rw [hsquare, hsum] at heq
  rw [heq, if_neg (by norm_num)]
  have hlow : (200000003.5 : ℝ) + 2 ≤ realRoot.sqrt 40000002200000032 :=
    (realRoot.le_sqrt_iff (by norm_num) (by norm_num)).mpr (by norm_num)
  have hhigh : realRoot.sqrt 40000002200000032 ≤ (200000003.5 : ℝ) + 2.5 :=
    (realRoot.sqrt_le_iff (by norm_num) (by norm_num)).mpr (by norm_num)
  generalize realRoot.sqrt 40000002200000032 = s at hlow hhigh
  have htwo : IsDouble (2 : ℝ) := ⟨2, 0, by decide, by decide, by norm_num⟩
  have hmore : IsDouble (2.5 : ℝ) := ⟨5, -1, by decide, by decide, by norm_num⟩
  have hbetween : 2 ≤ rounded (s - ((200000004 : ℤ) - 1 / 2 * (1 : ℤ)) : ℝ) ∧
      rounded (s - ((200000004 : ℤ) - 1 / 2 * (1 : ℤ)) : ℝ) ≤ 2.5 :=
    ⟨htwo.le_rounded (by norm_num at hlow ⊢; linarith),
      hmore.rounded_le (by norm_num at hhigh ⊢; linarith)⟩
  rw [Int.cast_one, div_one]
  rw [Int.cast_one] at hbetween
  refine congrArg Except.ok (truncate_eq (m := 2) (htwo.le_rounded hbetween.1)
    ((hmore.rounded_le hbetween.2).trans_lt (by norm_num)))

theorem past_position_off :
    History 0 [⟨200000004, slowMove, true⟩] (addMove twoSteps 200000004 slowMove) ∧
      stepsBy 400000008 [⟨200000004, slowMove, true⟩] = 1 ∧
      findPastPosition realRoot 400000008 (addMove twoSteps 200000004 slowMove) = .ok 2 := by
  have hline : Entry.Line ⟨200000004, slowMove, true⟩ twoSteps [200000004, 400000009] :=
    ⟨⟨by decide, isChain_iff_pairwise.mpr (by decide), fun t _ => Nat.zero_le t,
      by decide⟩, by decide, by decide⟩
  refine ⟨(show History 0 [] twoSteps from ⟨rfl, rfl, nofun, Pairwise.nil⟩).addMove rfl
    (.inr ⟨_, _, hline⟩) nofun, by decide, ?_⟩
  show ((quadraticCount realRoot 200000004 1 400000008).map Int32.ofInt).map _ = _
  rw [quadraticCount_slow]
  rfl

end Stepcompress
