import Pick.QuadraticProofs

/-! # The search for a move, in unbounded integers

`compress_bisect_add` of `klippy/chelper/stepcompress.c` with integers in place of
its 32-bit words.  The inner loop keeps the range of intervals with which the
sequence fits the windows of the steps so far; the outer loop bisects the range of
`add`. -/

namespace Stepcompress

namespace Exact

open Quadratic

/-! ## The search -/

/-- `idiv_up`. -/
def idivUp (n d : ℤ) : ℤ := if 0 ≤ n then (n + d - 1).tdiv d else n.tdiv d

/-- `idiv_down`. -/
def idivDown (n d : ℤ) : ℤ := if 0 ≤ n then n.tdiv d else (n - d + 1).tdiv d

/-- `struct points`. -/
structure Points where
  minp : ℤ
  maxp : ℤ
  deriving DecidableEq

/-- `minmax_point`, for the step at a place among the steps `ts`. -/
def minmaxPoint (lastStepClock maxError : ℕ) (ts : List ℕ) (pos : ℕ) : Points :=
  let point : ℤ := ts.getD pos 0 - lastStepClock
  let prevpoint : ℤ := if 0 < pos then ts.getD (pos - 1) 0 - lastStepClock else 0
  let half := (point - prevpoint).tdiv 2
  ⟨point - (if half > maxError then (maxError : ℤ) else half), point⟩

/-- `count*(count-1)/2`. -/
def addfactor (count : ℕ) : ℤ := ((count : ℤ) * (count - 1)).tdiv 2

/-- A lower limit `m`, raised when `m * n` is below `v`. -/
def raise (m v n : ℤ) : ℤ := if m * n < v then idivUp v n else m

/-- An upper limit `m`, lowered when `m * n` is above `v`. -/
def lower (m v n : ℤ) : ℤ := if m * n > v then idivDown v n else m

/-- How the search for the longest sequence with a given `add` ends. -/
inductive Sequence where
  | complete (interval : ℤ) (count : ℕ)
  | stopped (nextcount : ℕ) (nextpoint : Points) (nextmininterval nextmaxinterval interval : ℤ)
  deriving DecidableEq

/-- The inner loop, once it has `count` steps; `left` is how many more there are. -/
def longest (pt : ℕ → Points) (add : ℤ) :
    (left count : ℕ) → (nextmininterval nextmaxinterval interval : ℤ) → Sequence
  | 0, count, _, _, interval => .complete interval count
  | left + 1, count, nextmininterval, nextmaxinterval, interval =>
    let c := add * addfactor (count + 1)
    let nextmininterval := raise nextmininterval ((pt count).minp - c) ((count + 1 : ℕ) : ℤ)
    let nextmaxinterval := lower nextmaxinterval ((pt count).maxp - c) ((count + 1 : ℕ) : ℤ)
    if nextmininterval > nextmaxinterval then
      .stopped (count + 1) (pt count) nextmininterval nextmaxinterval interval
    else longest pt add left (count + 1) nextmininterval nextmaxinterval nextmaxinterval

/-- `struct step_move`. -/
structure Move where
  interval : ℤ
  count : ℕ
  add : ℤ
  deriving DecidableEq

/-- The best sequence so far, and the one with `add` 0. -/
structure Best where
  bestinterval : ℤ
  bestcount : ℕ
  bestadd : ℤ
  bestreach : ℤ
  zerointerval : ℤ
  zerocount : ℕ
  deriving DecidableEq

/-- No sequence so far; the reach is `INT32_MIN`. -/
def Best.start : Best := ⟨0, 1, 1, -2 ^ 31, 0, 0⟩

/-- The variables of the outer loop. -/
structure Bisect where
  outerMininterval : ℤ
  outerMaxinterval : ℤ
  add : ℤ
  minadd : ℤ
  maxadd : ℤ
  best : Best
  deriving DecidableEq

/-- The move returned when the search ends. -/
def Best.result (b : Best) : Move :=
  if b.zerocount + b.zerocount / 16 ≥ b.bestcount then ⟨b.zerointerval, b.zerocount, 0⟩
  else ⟨b.bestinterval, b.bestcount, b.bestadd⟩

/-- `reach` of a sequence. -/
def reach (add interval : ℤ) (count : ℕ) : ℤ := add * addfactor count + interval * count

/-- Whether a sequence is better than the best one so far. -/
def Best.improves (b : Best) (add interval : ℤ) (count : ℕ) : Bool :=
  reach add interval count > b.bestreach ||
    (reach add interval count == b.bestreach && interval > b.bestinterval)

/-- The best sequence so far, with one more considered. -/
def Best.update (b : Best) (add interval : ℤ) (count : ℕ) : Best :=
  if b.improves add interval count then
    { bestinterval := interval
      bestcount := count
      bestadd := add
      bestreach := reach add interval count
      zerointerval := if add = 0 then interval else b.zerointerval
      zerocount := if add = 0 then count else b.zerocount }
  else b

/-- Whether a greater or a lesser `add` could extend the sequence. -/
def Bisect.turn (b : Bisect) (nextcount : ℕ) (nextpoint : Points)
    (nextmininterval nextmaxinterval interval : ℤ) : Bisect :=
  if reach b.add interval nextcount < nextpoint.minp then
    { b with minadd := b.add + 1, outerMaxinterval := nextmaxinterval }
  else { b with maxadd := b.add - 1, outerMininterval := nextmininterval }

/-- The largest deviation between two valid sequences limits the range of `add`. -/
def Bisect.clamp (maxError count : ℕ) (b : Bisect) : Bisect :=
  if count > 1 then
    let errdelta : ℤ := ((maxError : ℤ) * 11).tdiv (count * count)
    { b with
      minadd := if b.minadd < b.add - errdelta then b.add - errdelta else b.minadd
      maxadd := if b.maxadd > b.add + errdelta then b.add + errdelta else b.maxadd }
  else b

/-- The next point may limit the range of `add` further. -/
def Bisect.limit (nextcount : ℕ) (nextpoint : Points) (b : Bisect) : Bisect :=
  { b with
    minadd := raise b.minadd (nextpoint.minp - b.outerMaxinterval * nextcount) (addfactor nextcount)
    maxadd := lower b.maxadd (nextpoint.maxp - b.outerMininterval * nextcount)
      (addfactor nextcount) }

/-- The ranges of `add` and of the interval, from a sequence that stopped. -/
def Bisect.narrow (maxError : ℕ) (b : Bisect) (nextcount : ℕ) (nextpoint : Points)
    (nextmininterval nextmaxinterval interval : ℤ) : Bisect :=
  ((b.turn nextcount nextpoint nextmininterval nextmaxinterval interval).clamp maxError
    (nextcount - 1)).limit nextcount nextpoint

/-- How a turn of the outer loop ends. -/
inductive Turn where
  | found (move : Move)
  | again (b : Bisect)
  deriving DecidableEq

/-- A turn of the outer loop; `qlast` is how many steps are considered. -/
def Bisect.step (pt : ℕ → Points) (maxError qlast : ℕ) (b : Bisect) : Turn :=
  match longest pt b.add (qlast - 1) 1 b.outerMininterval b.outerMaxinterval
      b.outerMaxinterval with
  | .complete interval count => .found ⟨interval, count, b.add⟩
  | .stopped nextcount nextpoint nextmininterval nextmaxinterval interval =>
    let count := nextcount - 1
    let best := b.best.update b.add interval count
    if b.best.improves b.add interval count && decide (count > 0x200) then
      .found best.result
    else
      let b := ({ b with best := best } : Bisect).narrow maxError nextcount nextpoint
        nextmininterval nextmaxinterval interval
      if b.minadd > b.maxadd then .found best.result
      else .again { b with add := b.maxadd - (b.maxadd - b.minadd).tdiv 4 }

/-- The outer loop. -/
def bisect (pt : ℕ → Points) (maxError qlast : ℕ) : ℕ → Bisect → Option Move
  | 0, _ => none
  | fuel + 1, b =>
    match b.step pt maxError qlast with
    | .found move => some move
    | .again b => bisect pt maxError qlast fuel b

/-- The variables before the first turn of the outer loop. -/
def Bisect.start (point : Points) : Bisect where
  outerMininterval := point.minp
  outerMaxinterval := point.maxp
  add := 0
  minadd := -0x8000
  maxadd := 0x7fff
  best := Best.start

/-- `compress_bisect_add`, for the steps `ts`. -/
def compressBisectAdd (fuel lastStepClock maxError : ℕ) (ts : List ℕ) : Option Move :=
  let pt := minmaxPoint lastStepClock maxError ts
  bisect pt maxError (min ts.length 65535) fuel (Bisect.start (pt 0))

/-! ## Division and limits -/

theorem idivUp_le_iff {n d x : ℤ} (hd : 0 < d) : idivUp n d ≤ x ↔ n ≤ x * d := by
  rw [idivUp]
  split
  · next hn =>
      rw [Int.tdiv_eq_ediv_of_nonneg (by omega), ← Int.lt_add_one_iff,
        Int.ediv_lt_iff_lt_mul hd, add_mul, one_mul]
      constructor
      · intro h
        omega
      · intro h
        omega
  · next hn =>
      obtain ⟨m, rfl⟩ : ∃ m, n = -m := ⟨-n, (neg_neg n).symm⟩
      rw [Int.neg_tdiv, Int.tdiv_eq_ediv_of_nonneg (by omega), neg_le,
        Int.le_ediv_iff_mul_le hd, neg_mul, neg_le_neg_iff.symm, neg_neg]

theorem le_idivDown_iff {n d x : ℤ} (hd : 0 < d) : x ≤ idivDown n d ↔ x * d ≤ n := by
  rw [idivDown]
  split
  · next hn => rw [Int.tdiv_eq_ediv_of_nonneg hn, Int.le_ediv_iff_mul_le hd]
  · next hn =>
      have hneg : n - d + 1 = -(d - 1 - n) := by ring
      rw [hneg, Int.neg_tdiv, Int.tdiv_eq_ediv_of_nonneg (by omega), le_neg,
        ← Int.lt_add_one_iff, Int.ediv_lt_iff_lt_mul hd, add_mul, one_mul, neg_mul]
      constructor
      · intro h
        omega
      · intro h
        omega

theorem raise_le_iff {m v n x : ℤ} (hn : 0 < n) : raise m v n ≤ x ↔ m ≤ x ∧ v ≤ x * n := by
  rw [raise]
  split
  · next hlow =>
      rw [idivUp_le_iff hn]
      constructor
      · intro h
        exact ⟨le_of_lt (lt_of_mul_lt_mul_right (hlow.trans_le h) hn.le), h⟩
      · exact fun h => h.2
  · next hhigh =>
      constructor
      · intro h
        exact ⟨h, (not_lt.mp hhigh).trans (mul_le_mul_of_nonneg_right h hn.le)⟩
      · exact fun h => h.1

theorem le_lower_iff {m v n x : ℤ} (hn : 0 < n) : x ≤ lower m v n ↔ x ≤ m ∧ x * n ≤ v := by
  rw [lower]
  split
  · next hhigh =>
      rw [le_idivDown_iff hn]
      constructor
      · intro h
        exact ⟨le_of_lt (lt_of_mul_lt_mul_right (h.trans_lt hhigh) hn.le), h⟩
      · exact fun h => h.2
  · next hlow =>
      constructor
      · intro h
        exact ⟨h, (mul_le_mul_of_nonneg_right h hn.le).trans (not_lt.mp hlow)⟩
      · exact fun h => h.1

theorem addfactor_eq (count : ℕ) : addfactor count = count.choose 2 := by
  cases count with
  | zero => rfl
  | succ n =>
    have htwice := choose_two_mul_two n
    rw [addfactor, Nat.cast_succ, add_sub_cancel_right, ← htwice]
    exact Int.mul_tdiv_cancel _ (by decide)

theorem reach_eq (add interval : ℤ) (count : ℕ) :
    reach add interval count = value add interval count := by
  rw [reach, addfactor_eq, value]

theorem addfactor_pos {count : ℕ} (h : 2 ≤ count) : 0 < addfactor count := by
  rw [addfactor_eq]
  exact_mod_cast Nat.choose_pos h

/-! ## The inner loop -/

/-- The window of step number `k`. -/
def lo (pt : ℕ → Points) (k : ℕ) : ℤ := (pt (k - 1)).minp

/-- The end of the window of a step. -/
def hi (pt : ℕ → Points) (k : ℕ) : ℤ := (pt (k - 1)).maxp

section Inner

variable {pt : ℕ → Points} {add outerMin outerMax least most : ℤ} {count : ℕ}

/-- The intervals from `least` to `most` fit the first `count` windows. -/
structure Inner (pt : ℕ → Points) (add outerMin outerMax : ℤ) (count : ℕ)
    (least most : ℤ) : Prop where
  pos : 1 ≤ count
  le : least ≤ most
  outer_le : outerMin ≤ least
  le_outer : most ≤ outerMax
  fits_least : Fits (lo pt) (hi pt) add least count
  fits_most : Fits (lo pt) (hi pt) add most count

/-- The range of intervals after one more window. -/
def nextLeast (pt : ℕ → Points) (add : ℤ) (count : ℕ) (least : ℤ) : ℤ :=
  raise least ((pt count).minp - add * addfactor (count + 1)) ((count + 1 : ℕ) : ℤ)

/-- `nextmaxinterval`. -/
def nextMost (pt : ℕ → Points) (add : ℤ) (count : ℕ) (most : ℤ) : ℤ :=
  lower most ((pt count).maxp - add * addfactor (count + 1)) ((count + 1 : ℕ) : ℤ)

theorem nextLeast_le_iff {x : ℤ} : nextLeast pt add count least ≤ x ↔
    least ≤ x ∧ lo pt (count + 1) ≤ value add x (count + 1) := by
  have hpos : (0 : ℤ) < ((count + 1 : ℕ) : ℤ) := by omega
  rw [nextLeast, raise_le_iff hpos, sub_le_iff_le_add', ← reach, reach_eq]
  rfl

theorem le_nextMost_iff {x : ℤ} : x ≤ nextMost pt add count most ↔
    x ≤ most ∧ value add x (count + 1) ≤ hi pt (count + 1) := by
  have hpos : (0 : ℤ) < ((count + 1 : ℕ) : ℤ) := by omega
  rw [nextMost, le_lower_iff hpos, le_sub_iff_add_le', ← reach, reach_eq]
  rfl

/-- One more window, while the range is not empty. -/
theorem Inner.next (h : Inner pt add outerMin outerMax count least most)
    (hle : nextLeast pt add count least ≤ nextMost pt add count most) :
    Inner pt add outerMin outerMax (count + 1) (nextLeast pt add count least)
      (nextMost pt add count most) := by
  obtain ⟨hlow, hlo⟩ := nextLeast_le_iff.mp (le_refl (nextLeast pt add count least))
  obtain ⟨hlow', hlo'⟩ := nextLeast_le_iff.mp hle
  obtain ⟨hhigh, hhi⟩ := le_nextMost_iff.mp (le_refl (nextMost pt add count most))
  obtain ⟨hhigh', hhi'⟩ := le_nextMost_iff.mp hle
  refine ⟨Nat.succ_pos _, hle, h.outer_le.trans hlow, hhigh.trans h.le_outer, ?_, ?_⟩
  · exact (h.fits_least.between h.fits_most hlow hhigh').snoc hlo hhi'
  · exact (h.fits_least.between h.fits_most hlow' hhigh).snoc hlo' hhi

theorem longest_succ (pt : ℕ → Points) (add : ℤ) (left count : ℕ) (least most i : ℤ) :
    longest pt add (left + 1) count least most i =
      if nextLeast pt add count least > nextMost pt add count most then
        .stopped (count + 1) (pt count) (nextLeast pt add count least)
          (nextMost pt add count most) i
      else longest pt add left (count + 1) (nextLeast pt add count least)
        (nextMost pt add count most) (nextMost pt add count most) :=
  rfl

/-- **THE INNER LOOP** goes through all windows, or stops at one that no interval fits any more. -/
theorem longest_spec {left : ℕ} (h : Inner pt add outerMin outerMax count least most) :
    (∃ i, longest pt add left count least most most = .complete i (count + left) ∧
        Fits (lo pt) (hi pt) add i (count + left)) ∨
      ∃ n m i, longest pt add left count least most most = .stopped (n + 1) (pt n)
          (nextLeast pt add n m) (nextMost pt add n i) i ∧
        Inner pt add outerMin outerMax n m i ∧ n < count + left ∧
        nextMost pt add n i < nextLeast pt add n m := by
  induction left generalizing count least most with
  | zero => exact .inl ⟨most, rfl, h.fits_most⟩
  | succ left ih =>
    rw [longest_succ]
    by_cases hstop : nextLeast pt add count least > nextMost pt add count most
    · rw [if_pos hstop]
      exact .inr ⟨count, least, most, rfl, h, by omega, hstop⟩
    · rw [if_neg hstop, show count + (left + 1) = count + 1 + left by omega]
      exact ih (h.next (not_lt.mp hstop))

end Inner

/-! ## The outer loop -/

/-- What the search returns: a sequence that fits, with parameters that `step_move` can hold. -/
structure Found (pt : ℕ → Points) (qlast : ℕ) (m : Move) : Prop where
  pos : 1 ≤ m.count
  le : m.count ≤ qlast
  fits : Fits (lo pt) (hi pt) m.add m.interval m.count
  add_ge : -0x8000 ≤ m.add
  add_le : m.add ≤ 0x7fff

/-- The best sequence and the one with `add` 0 fit. -/
structure Kept (pt : ℕ → Points) (qlast : ℕ) (b : Best) : Prop where
  best : Found pt qlast ⟨b.bestinterval, b.bestcount, b.bestadd⟩
  reach : b.bestreach = value b.bestadd b.bestinterval b.bestcount
  zero : b.zerocount ≠ 0 → Found pt qlast ⟨b.zerointerval, b.zerocount, 0⟩

/-- What is known between two turns: a longer sequence would have ended the search. -/
def Known (pt : ℕ → Points) (qlast : ℕ) (b : Best) : Prop :=
  b = Best.start ∨ Kept pt qlast b ∧ b.bestcount ≤ 0x200

section Outer

variable {pt : ℕ → Points} {qlast n : ℕ} {bound add outerMin outerMax least i : ℤ}
  {b : Best}

theorem Kept.result (h : Kept pt qlast b) : Found pt qlast b.result := by
  rw [Best.result]
  split
  · next hzero =>
      refine h.zero fun hnone => ?_
      have hpos : 1 ≤ b.bestcount := h.best.pos
      rw [hnone] at hzero
      omega
  · exact h.best

variable (h : Known pt qlast b) (hw : Windows (lo pt) (hi pt) qlast bound)
  (hin : Inner pt add outerMin outerMax n least i) (hn : n ≤ qlast)
include h hw hin hn

/-- A sequence that goes further is an improvement. -/
theorem Known.improves (hlong : b = Best.start ∨ n > 0x200) : b.improves add i n = true := by
  have hmore : reach add i n > b.bestreach := by
    rw [reach_eq]
    rcases h with rfl | ⟨hkept, hshort⟩
    · have hlow := (hin.fits_most n hin.pos (le_refl _)).1
      have hnonneg := hw.lo_nonneg hin.pos hn
      show (-2 ^ 31 : ℤ) < value add i n
      omega
    · rcases hlong with rfl | hlong
      · exact absurd hkept.reach (by decide)
      · rw [hkept.reach]
        exact Fits.lt_value hw hkept.best.fits hin.fits_most hkept.best.pos (by omega) hn
  rw [Best.improves, decide_eq_true hmore, Bool.true_or]

theorem Known.update (hge : -0x8000 ≤ add) (hle : add ≤ 0x7fff) :
    Kept pt qlast (b.update add i n) := by
  have hnew : Found pt qlast ⟨i, n, add⟩ := ⟨hin.pos, hn, hin.fits_most, hge, hle⟩
  rw [Best.update]
  split
  · refine ⟨hnew, reach_eq add i n, ?_⟩
    show (if add = 0 then n else b.zerocount) ≠ 0 →
      Found pt qlast ⟨if add = 0 then i else b.zerointerval, if add = 0 then n else b.zerocount, 0⟩
    split
    · next hzero =>
        intro _
        rw [hzero] at hnew
        exact hnew
    · intro hcount
      rcases h with rfl | ⟨hkept, -⟩
      · exact absurd rfl hcount
      · exact hkept.zero hcount
  · next hworse =>
      rcases h with rfl | ⟨hkept, -⟩
      · have hbetter := @Known.improves pt qlast n bound add outerMin outerMax least i _
          (.inl rfl) hw hin hn (.inl rfl)
        exact absurd hbetter hworse
      · exact hkept

/-- A sequence that does not end the search is short. -/
theorem Known.short (hgo : ¬ (b.improves add i n && decide (n > 0x200)) = true) :
    n ≤ 0x200 ∧ (b.update add i n).bestcount ≤ 0x200 := by
  have hshort : n ≤ 0x200 := by
    by_contra hlong
    have hlong' : n > 0x200 := not_le.mp hlong
    refine hgo ?_
    rw [h.improves hw hin hn (.inr hlong'), decide_eq_true hlong', Bool.true_and]
  refine ⟨hshort, ?_⟩
  rw [Best.update]
  split
  · exact hshort
  · rcases h with rfl | ⟨-, hkept⟩
    · exact Nat.le_of_ble_eq_true rfl
    · exact hkept

end Outer

/-- The variables between two turns. -/
structure Search (pt : ℕ → Points) (qlast : ℕ) (b : Bisect) : Prop where
  lo_le : lo pt 1 ≤ b.outerMininterval
  outer_le : b.outerMininterval ≤ b.outerMaxinterval
  le_hi : b.outerMaxinterval ≤ hi pt 1
  minadd_ge : -0x8000 ≤ b.minadd
  minadd_le : b.minadd ≤ b.add
  le_maxadd : b.add ≤ b.maxadd
  maxadd_le : b.maxadd ≤ 0x7fff
  known : Known pt qlast b.best

/-- The variables within a turn, after a sequence with the interval `i` has stopped:
    the `add` that was tried is out of the range. -/
structure Turned (pt : ℕ → Points) (b : Bisect) (i : ℤ) (t : Bisect) : Prop where
  add : t.add = b.add
  best : t.best = b.best
  lo_le : lo pt 1 ≤ t.outerMininterval
  outer_le : t.outerMininterval ≤ i
  le_outer : i ≤ t.outerMaxinterval
  le_hi : t.outerMaxinterval ≤ hi pt 1
  minadd_ge : b.minadd ≤ t.minadd
  minadd_le : t.minadd ≤ b.add + 1
  le_maxadd : b.add - 1 ≤ t.maxadd
  maxadd_le : t.maxadd ≤ b.maxadd
  shorter : t.maxadd - t.minadd < b.maxadd - b.minadd

section Turn

variable {pt : ℕ → Points} {qlast n maxError : ℕ} {bound least i : ℤ} {b : Bisect}

theorem Search.add_mem (h : Search pt qlast b) : -0x8000 ≤ b.add ∧ b.add ≤ 0x7fff :=
  ⟨h.minadd_ge.trans h.minadd_le, h.le_maxadd.trans h.maxadd_le⟩

/-- The first window holds the range of the outer loop. -/
theorem Search.inner (h : Search pt qlast b) :
    Inner pt b.add b.outerMininterval b.outerMaxinterval 1 b.outerMininterval
      b.outerMaxinterval := by
  refine ⟨le_refl _, h.outer_le, le_refl _, le_refl _, ?_, ?_⟩
  · intro k hk hk'
    obtain rfl : k = 1 := by omega
    rw [value_one]
    exact ⟨h.lo_le, h.outer_le.trans h.le_hi⟩
  · intro k hk hk'
    obtain rfl : k = 1 := by omega
    rw [value_one]
    exact ⟨h.lo_le.trans h.outer_le, h.le_hi⟩

/-- The change of `add` that the deviation allows is not negative. -/
theorem errdelta_nonneg (maxError n : ℕ) : 0 ≤ ((maxError : ℤ) * 11).tdiv ((n : ℤ) * n) := by
  refine Int.tdiv_nonneg ?_ ?_
  · omega
  · exact mul_nonneg (Int.natCast_nonneg n) (Int.natCast_nonneg n)

theorem Turned.clamp {t : Bisect} (h : Turned pt b i t) : Turned pt b i (t.clamp maxError n) := by
  have hdelta := errdelta_nonneg maxError n
  have hmin := h.minadd_le
  have hmax := h.le_maxadd
  rw [Bisect.clamp]
  split
  · dsimp only
    rw [h.add]
    generalize ((maxError : ℤ) * 11).tdiv ((n : ℤ) * n) = errdelta at hdelta ⊢
    obtain ⟨hlow, hlow'⟩ : t.minadd ≤ (if t.minadd < b.add - errdelta then b.add - errdelta
        else t.minadd) ∧ (if t.minadd < b.add - errdelta then b.add - errdelta
        else t.minadd) ≤ b.add + 1 := by
      split <;> omega
    obtain ⟨hhigh, hhigh'⟩ : (if t.maxadd > b.add + errdelta then b.add + errdelta
        else t.maxadd) ≤ t.maxadd ∧ b.add - 1 ≤ if t.maxadd > b.add + errdelta then
        b.add + errdelta else t.maxadd := by
      split <;> omega
    exact { h with
      add := rfl
      minadd_ge := h.minadd_ge.trans hlow
      minadd_le := hlow'
      le_maxadd := hhigh'
      maxadd_le := hhigh.trans h.maxadd_le
      shorter := (sub_le_sub hhigh hlow).trans_lt h.shorter }
  · exact h

/-- The next point only narrows the range. -/
theorem limit_minadd_ge (t : Bisect) (hn : 1 ≤ n) : t.minadd ≤ (t.limit (n + 1) (pt n)).minadd :=
  ((raise_le_iff (addfactor_pos (Nat.succ_le_succ hn))).mp (le_refl _)).1

theorem limit_maxadd_le (t : Bisect) (hn : 1 ≤ n) : (t.limit (n + 1) (pt n)).maxadd ≤ t.maxadd :=
  ((le_lower_iff (addfactor_pos (Nat.succ_le_succ hn))).mp (le_refl _)).1

/-- The variables after a turn. -/
structure Narrowed (pt : ℕ → Points) (b t : Bisect) : Prop where
  best : t.best = b.best
  lo_le : lo pt 1 ≤ t.outerMininterval
  outer_le : t.outerMininterval ≤ t.outerMaxinterval
  le_hi : t.outerMaxinterval ≤ hi pt 1
  minadd_ge : b.minadd ≤ t.minadd
  maxadd_le : t.maxadd ≤ b.maxadd
  shorter : t.maxadd - t.minadd < b.maxadd - b.minadd

section Narrow

variable (h : Search pt qlast b) (hw : Windows (lo pt) (hi pt) qlast bound)
  (hin : Inner pt b.add b.outerMininterval b.outerMaxinterval n least i) (hn : n < qlast)
include h hw hin hn

/-- A greater `add` is tried when the sequence falls short of the next window with its largest
    interval. -/
theorem Search.turn : Turned pt b i (b.turn (n + 1) (pt n) (nextLeast pt b.add n least)
      (nextMost pt b.add n i) i) := by
  have hminadd := h.minadd_le
  have hmaxadd := h.le_maxadd
  have hlow := h.lo_le.trans (hin.outer_le.trans hin.le)
  have hhigh := hin.le_outer.trans h.le_hi
  rw [Bisect.turn]
  split
  · next hreach =>
      rw [reach_eq] at hreach
      -- the largest interval is below the window, so it is not lowered
      have hsame : nextMost pt b.add n i = i := by
        refine le_antisymm (le_nextMost_iff.mp (le_refl _)).1 (le_nextMost_iff.mpr ?_)
        have hwindow := hw.nonempty (n + 1) (by omega) hn
        exact ⟨le_refl _, (le_of_lt hreach).trans hwindow⟩
      rw [hsame]
      exact ⟨rfl, rfl, h.lo_le, hin.outer_le.trans hin.le, le_refl _, hhigh,
        by show b.minadd ≤ b.add + 1; omega, le_refl _, by show b.add - 1 ≤ b.maxadd; omega,
        le_refl _, by show b.maxadd - (b.add + 1) < _; omega⟩
  · next hreach =>
      rw [reach_eq, not_lt] at hreach
      have hle : nextLeast pt b.add n least ≤ i := nextLeast_le_iff.mpr ⟨hin.le, hreach⟩
      have hge := (nextLeast_le_iff.mp (le_refl (nextLeast pt b.add n least))).1
      exact ⟨rfl, rfl, h.lo_le.trans (hin.outer_le.trans hge), hle, hin.le_outer, h.le_hi,
        le_refl _, by show b.minadd ≤ b.add + 1; omega, le_refl _,
        by show b.add - 1 ≤ b.maxadd; omega, by show b.add - 1 - b.minadd < _; omega⟩

theorem Search.narrow : Narrowed pt b (b.narrow maxError (n + 1) (pt n)
      (nextLeast pt b.add n least) (nextMost pt b.add n i) i) := by
  have hturn := @Turned.clamp pt n maxError i _ _ (h.turn hw hin hn)
  rw [Bisect.narrow, Nat.add_sub_cancel]
  generalize (b.turn (n + 1) (pt n) (nextLeast pt b.add n least) (nextMost pt b.add n i)
    i).clamp maxError n = t at hturn ⊢
  have hmin := @limit_minadd_ge pt n t hin.pos
  have hmax := @limit_maxadd_le pt n t hin.pos
  exact { hturn with
    outer_le := hturn.outer_le.trans hturn.le_outer
    minadd_ge := hturn.minadd_ge.trans hmin
    maxadd_le := hmax.trans hturn.maxadd_le
    shorter := (sub_le_sub hmax hmin).trans_lt hturn.shorter }

/-- The best sequence plays no part in the ranges. -/
theorem Search.update (hgo : ¬ (b.best.improves b.add i n && decide (n > 0x200)) = true) :
    n ≤ 0x200 ∧ Search pt qlast { b with best := b.best.update b.add i n } := by
  obtain ⟨hge, hle⟩ := h.add_mem
  obtain ⟨hshort, hbest⟩ := h.known.short hw hin hn.le hgo
  exact ⟨hshort, { h with known := .inr ⟨h.known.update hw hin hn.le hge hle, hbest⟩ }⟩

end Narrow

/-- **A TURN** of the outer loop finds a move or goes on with a shorter range. -/
theorem Search.step (h : Search pt qlast b) (hw : Windows (lo pt) (hi pt) qlast bound)
    (hq : 1 ≤ qlast) :
    (∃ m, b.step pt maxError qlast = .found m ∧ Found pt qlast m) ∨
      ∃ b', b.step pt maxError qlast = .again b' ∧ Search pt qlast b' ∧
        b'.maxadd - b'.minadd < b.maxadd - b.minadd := by
  have hlength : 1 + (qlast - 1) = qlast := by omega
  obtain ⟨hge, hle⟩ := h.add_mem
  rw [Bisect.step]
  rcases @longest_spec pt b.add _ _ _ _ _ (qlast - 1) h.inner with
    ⟨i, hdone, hfits⟩ | ⟨n, least, i, hstop, hin, hn, -⟩
  · rw [hdone, hlength]
    rw [hlength] at hfits
    exact .inl ⟨_, rfl, hq, le_refl _, hfits, hge, hle⟩
  · rw [hlength] at hn
    rw [hstop]
    dsimp only
    rw [Nat.add_sub_cancel]
    have hkept := h.known.update hw hin hn.le hge hle
    by_cases hend : (b.best.improves b.add i n && decide (n > 0x200)) = true
    · rw [if_pos hend]
      exact .inl ⟨_, rfl, hkept.result⟩
    rw [if_neg hend]
    obtain ⟨-, h'⟩ := h.update hw hin hn hend
    have hnarrow := @Search.narrow pt qlast n maxError bound least i _ h' hw hin hn
    generalize Bisect.narrow maxError { b with best := b.best.update b.add i n } (n + 1) (pt n)
      (nextLeast pt b.add n least) (nextMost pt b.add n i) i = t at hnarrow ⊢
    by_cases hempty : t.minadd > t.maxadd
    · rw [if_pos hempty]
      exact .inl ⟨_, rfl, hkept.result⟩
    · rw [if_neg hempty]
      have hquarter : (t.maxadd - t.minadd).tdiv 4 = (t.maxadd - t.minadd) / 4 :=
        Int.tdiv_eq_ediv_of_nonneg (by omega)
      refine .inr ⟨_, rfl, ⟨hnarrow.lo_le, hnarrow.outer_le, hnarrow.le_hi,
        h.minadd_ge.trans hnarrow.minadd_ge, ?_, ?_, hnarrow.maxadd_le.trans h.maxadd_le, ?_⟩,
        hnarrow.shorter⟩
      · dsimp only
        rw [hquarter]
        omega
      · dsimp only
        rw [hquarter]
        omega
      · show Known pt qlast t.best
        rw [hnarrow.best]
        exact h'.known

/-- **THE SEARCH ENDS**: each turn takes at least one value of `add` out of the range. -/
theorem bisect_found (hw : Windows (lo pt) (hi pt) qlast bound) (hq : 1 ≤ qlast)
    {fuel : ℕ} (h : Search pt qlast b) (hfuel : b.maxadd - b.minadd < fuel) :
    ∃ m, bisect pt maxError qlast fuel b = some m ∧ Found pt qlast m := by
  induction fuel generalizing b with
  | zero =>
    have hmin := h.minadd_le
    have hmax := h.le_maxadd
    omega
  | succ fuel ih =>
    rw [bisect]
    rcases @Search.step pt qlast maxError bound b h hw hq with
      ⟨m, hstep, hfound⟩ | ⟨b', hstep, h', hshorter⟩
    · rw [hstep]
      exact ⟨m, rfl, hfound⟩
    · rw [hstep]
      exact ih h' (by push_cast at hfuel; omega)

/-- The search starts with every `add` that a move can hold. -/
theorem search_start (hw : Windows (lo pt) (hi pt) qlast bound) (hq : 1 ≤ qlast) :
    Search pt qlast (Bisect.start (pt 0)) :=
  ⟨le_refl _, hw.nonempty 1 (le_refl _) hq, le_refl _, le_refl _,
    show (-0x8000 : ℤ) ≤ 0 by decide, show (0 : ℤ) ≤ 0x7fff by decide, le_refl _,
    .inl rfl⟩

end Turn

end Exact

end Stepcompress
