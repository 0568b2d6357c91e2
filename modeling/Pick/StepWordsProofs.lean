import Pick.StepLineProofs
import Pick.StepSearchProofs

/-! # The search in 32-bit words

The variables of `compress_bisect_add` are the words of those of the search in
integers.  Sums, differences and products need no argument, as the words wrap;
what must not overflow are the two sides of a comparison and the operands of a
division.  Their bounds come from the windows: up to the step where a sequence
stops, both parts of its sum are below `CLOCK_DIFF_MAX`. -/

namespace Stepcompress

open Quadratic Words

/-! ## Bounds -/

section Bounds

variable {pt : ℕ → Exact.Points} {qlast n : ℕ} {add i : ℤ}
  (hw : Windows (Exact.lo pt) (Exact.hi pt) qlast clockDiffMax)
  (h : Fits (Exact.lo pt) (Exact.hi pt) add i (n + 1)) (hn : n + 1 ≤ qlast)
include hw h hn

/-- The values and the intervals of a sequence that fits are small. -/
theorem fits_bounds : 0 ≤ i ∧ 0 ≤ i + add * n ∧ i + add * n ≤ value add i (n + 1) ∧
      0 ≤ value add i (n + 1) ∧ value add i (n + 1) < 805306368 :=
  ⟨Fits.interval_nonneg hw h, Fits.last_nonneg hw h hn, Fits.last_le hw h hn,
    Fits.value_nonneg hw h hn, Fits.value_lt hw h hn⟩

/-- **THE NEXT STEP** of a sequence that fits so far: neither part of its sum is far from the
    windows, for short sequences by the range of `add`, for long ones by their interval. -/
theorem next_bounds (hge : -0x8000 ≤ add) (hle : add ≤ 0x7fff) :
    0 ≤ i * ((n + 1 + 1 : ℕ) : ℤ) ∧ i * ((n + 1 + 1 : ℕ) : ℤ) ≤ 2013265920 ∧
      -1208025088 ≤ add * (n + 1 + 1).choose 2 ∧ add * (n + 1 + 1).choose 2 ≤ 1610645503 := by
  obtain ⟨hfirst, hlast, hlast', -, hvalue⟩ := fits_bounds hw h hn
  have hpart := Fits.add_mul_le hw h
  have hpart' := Fits.neg_add_mul_le hw h hn
  have htwice := Fits.interval_mul_le hw h hn
  have hsplit : value add i (n + 1) = add * (n + 1).choose 2 + i * ((n + 1 : ℕ) : ℤ) := rfl
  have hchoose : add * ((n + 1 + 1).choose 2 : ℤ) = add * (n + 1).choose 2 + (add * n + add) := by
    rw [choose_two_succ (n + 1)]
    push_cast
    ring
  have hnext : i * ((n + 1 + 1 : ℕ) : ℤ) = i * ((n + 1 : ℕ) : ℤ) + i := by
    push_cast
    ring
  have hnonneg : 0 ≤ i * ((n + 1 : ℕ) : ℤ) := mul_nonneg hfirst (Int.natCast_nonneg _)
  rw [hnext, hchoose]
  by_cases hlong : 3 ≤ n
  · have hsmall : i * 4 ≤ i * ((n + 1 : ℕ) : ℤ) := mul_le_mul_of_nonneg_left (by omega) hfirst
    refine ⟨?_, ?_, ?_, ?_⟩
    · omega
    · omega
    · omega
    · omega
  · obtain rfl | rfl | rfl : n = 0 ∨ n = 1 ∨ n = 2 := by omega
    · have hone : value add i (0 + 1) = i := value_one add i
      norm_num [Nat.choose]
      omega
    · have htwo : value add i (1 + 1) = add * 1 + i * 2 := rfl
      norm_num [Nat.choose]
      omega
    · have hthree : value add i (2 + 1) = add * 3 + i * 3 := rfl
      norm_num [Nat.choose]
      omega

/-- A sequence that rises or falls is not long enough for `addfactor` to overflow. -/
theorem choose_lt : add = 0 ∨ (n + 1).choose 2 < 805306368 := by
  obtain ⟨-, -, -, -, hvalue⟩ := fits_bounds hw h hn
  have hpart := Fits.add_mul_le hw h
  have hpart' := Fits.neg_add_mul_le hw h hn
  have hnonneg : (0 : ℤ) ≤ (n + 1).choose 2 := Int.natCast_nonneg _
  rcases lt_trichotomy add 0 with hneg | hzero | hpos
  · have hmul : 1 * ((n + 1).choose 2 : ℤ) ≤ -add * (n + 1).choose 2 :=
      mul_le_mul_of_nonneg_right (by omega) hnonneg
    rw [neg_mul] at hmul
    exact .inr (by omega)
  · exact .inl hzero
  · have hmul : 1 * ((n + 1).choose 2 : ℤ) ≤ add * (n + 1).choose 2 :=
      mul_le_mul_of_nonneg_right (by omega) hnonneg
    exact .inr (by omega)

end Bounds

/-! ## Divisions and limits -/

/-- A lower limit that is raised, in words. -/
def raise (m v n : Int32) : Int32 := if m * n < v then idivUp v n else m

/-- An upper limit that is lowered, in words. -/
def lower (m v n : Int32) : Int32 := if m * n > v then idivDown v n else m

/-- What a division by `n` needs: the numerator may be rounded up or down. -/
structure Divides (v n : ℤ) : Prop where
  pos : 0 < n
  ge : -2 ^ 31 + n ≤ v
  lt : v + n < 2 ^ 31

section Limits

variable {m v n : ℤ} (h : Divides v n)
include h

theorem Divides.signed : Signed v ∧ Signed n := by
  obtain ⟨hpos, hge, hlt⟩ := h
  exact ⟨⟨by omega, by omega⟩, ⟨by omega, by omega⟩⟩

theorem idivUp_words : idivUp (.ofInt v) (.ofInt n) = Int32.ofInt (Exact.idivUp v n) := by
  obtain ⟨hv, hn⟩ := h.signed
  obtain ⟨hpos, hge, hlt⟩ := h
  have hsum (h0 : 0 ≤ v) : Signed (v + n - 1) := ⟨by omega, by omega⟩
  rw [idivUp, Exact.idivUp, apply_ite Int32.ofInt, hv.ofInt_tdiv hn]
  refine ite_congr (propext hv.zero_le_iff) (fun h0 => ?_) fun _ => rfl
  rw [(hsum h0).ofInt_tdiv hn, Int32.ofInt_sub, Int32.ofInt_add]
  rfl

theorem idivDown_words :
    idivDown (.ofInt v) (.ofInt n) = Int32.ofInt (Exact.idivDown v n) := by
  obtain ⟨hv, hn⟩ := h.signed
  obtain ⟨hpos, hge, hlt⟩ := h
  have hdiff (h0 : ¬ 0 ≤ v) : Signed (v - n + 1) := ⟨by omega, by omega⟩
  rw [idivDown, Exact.idivDown, apply_ite Int32.ofInt, hv.ofInt_tdiv hn]
  refine ite_congr (propext hv.zero_le_iff) (fun _ => rfl) fun h0 => ?_
  rw [(hdiff h0).ofInt_tdiv hn, Int32.ofInt_add, Int32.ofInt_sub]
  rfl

theorem raise_words (hm : Signed (m * n)) :
    raise (.ofInt m) (.ofInt v) (.ofInt n) = Int32.ofInt (Exact.raise m v n) := by
  rw [raise, Exact.raise, idivUp_words h, ← Int32.ofInt_mul]
  exact hm.ofInt_ite h.signed.1 _ _

theorem lower_words (hm : Signed (m * n)) :
    lower (.ofInt m) (.ofInt v) (.ofInt n) = Int32.ofInt (Exact.lower m v n) := by
  rw [lower, Exact.lower, idivDown_words h, ← Int32.ofInt_mul]
  exact h.signed.1.ofInt_ite hm _ _

/-- A limit that is raised stays in the range of words. -/
theorem raise_signed (hm : Signed m) : Signed (Exact.raise m v n) := by
  obtain ⟨hpos, hge, hlt⟩ := h
  have hlow := ((Exact.raise_le_iff hpos).mp (le_refl (Exact.raise m v n))).1
  have hhigh : Exact.raise m v n ≤ max m (max v 0) := by
    refine (Exact.raise_le_iff hpos).mpr ⟨le_max_left _ _, ?_⟩
    have hgrow : max m (max v 0) * 1 ≤ max m (max v 0) * n :=
      mul_le_mul_of_nonneg_left (by omega) (by omega)
    omega
  have hrange := hm
  obtain ⟨hm₁, hm₂⟩ := hrange
  exact ⟨by omega, by omega⟩

theorem lower_signed (hm : Signed m) : Signed (Exact.lower m v n) := by
  obtain ⟨hpos, hge, hlt⟩ := h
  have hhigh := ((Exact.le_lower_iff hpos).mp (le_refl (Exact.lower m v n))).1
  have hlow : min m (min v 0) ≤ Exact.lower m v n := by
    refine (Exact.le_lower_iff hpos).mpr ⟨min_le_left _ _, ?_⟩
    have hgrow : min m (min v 0) * n ≤ min m (min v 0) * 1 :=
      mul_le_mul_of_nonpos_left (by omega) (by omega)
    omega
  obtain ⟨hm₁, hm₂⟩ := hm
  exact ⟨by omega, by omega⟩

end Limits

theorem addfactor_words {count : ℕ} (hpos : 1 ≤ count) (hlt : count < 2 ^ 16)
    (hsmall : count.choose 2 < 2 ^ 30) :
    Int32.ofNat count * (.ofNat count - 1) / 2 = Int32.ofInt (Exact.addfactor count) := by
  obtain ⟨n, rfl⟩ : ∃ n, count = n + 1 := ⟨count - 1, by omega⟩
  rw [Exact.addfactor_eq, ← toInt_addfactor hlt hsmall, Int32.ofInt_toInt]

/-- `addfactor` in words: it may overflow only when it is multiplied by 0. -/
theorem mul_addfactor_words {add : ℤ} {count : ℕ} (hpos : 1 ≤ count) (hlt : count < 2 ^ 16)
    (hsmall : add = 0 ∨ count.choose 2 < 2 ^ 30) :
    Int32.ofInt add * (.ofNat count * (.ofNat count - 1) / 2) =
      Int32.ofInt (add * Exact.addfactor count) := by
  rcases hsmall with rfl | hsmall
  · rw [zero_mul]
    exact Int32.zero_mul
  · rw [addfactor_words hpos hlt hsmall, Int32.ofInt_mul]

/-! ## The inner loop -/

/-- In 32 bits. -/
def Exact.Points.words (p : Exact.Points) : Stepcompress.Points :=
  ⟨Int32.ofInt p.minp, Int32.ofInt p.maxp⟩

/-- In 32 bits. -/
def Exact.Sequence.words : Exact.Sequence → Stepcompress.Sequence
  | .complete interval count => .complete (.ofInt interval) count
  | .stopped nextcount nextpoint nextmin nextmax interval =>
    .stopped nextcount nextpoint.words (.ofInt nextmin) (.ofInt nextmax)
      (.ofInt interval)

/-- The windows `pt` are those that `minmax_point` computes. -/
structure WindowsOf (sc : State) (pt : ℕ → Exact.Points) (qlast : ℕ) : Prop where
  windows : Windows (Exact.lo pt) (Exact.hi pt) qlast clockDiffMax
  short : qlast ≤ 65535
  points : ∀ k < qlast, minmaxPoint sc k = (pt k).words
  first : Exact.hi pt 1 ≤ Exact.lo pt 1 + sc.maxError.toNat
  maxError : sc.maxError.toNat < 2 ^ 15

section Inner

variable {sc : State} {pt : ℕ → Exact.Points} {qlast count : ℕ}
  {add outerMin outerMax least most : ℤ}

/-- The bounds of the values that the inner loop compares and divides. -/
structure Bounded (pt : ℕ → Exact.Points) (add : ℤ) (count : ℕ) (i : ℤ) : Prop where
  product : Signed (i * ((count + 1 : ℕ) : ℤ))
  interval : Signed i
  minp : Divides ((pt count).minp - add * Exact.addfactor (count + 1)) ((count + 1 : ℕ) : ℤ)
  maxp : Divides ((pt count).maxp - add * Exact.addfactor (count + 1)) ((count + 1 : ℕ) : ℤ)
  factor : add = 0 ∨ (count + 1).choose 2 < 2 ^ 30

/-- A window lies between 0 and `CLOCK_DIFF_MAX`. -/
theorem WindowsOf.point (hr : WindowsOf sc pt qlast) (hn : count < qlast) :
    0 ≤ (pt count).minp ∧ (pt count).minp ≤ (pt count).maxp ∧ (pt count).maxp < 805306368 :=
  ⟨hr.windows.lo_nonneg (Nat.succ_pos count) hn,
    hr.windows.nonempty (count + 1) (Nat.succ_pos _) hn,
    hr.windows.bounded (count + 1) (Nat.succ_pos _) hn⟩

/-- The values of a sequence that fits are those of words. -/
theorem WindowsOf.signed {n : ℕ} {i : ℤ} (hr : WindowsOf sc pt qlast) (hpos : 1 ≤ n)
    (h : Fits (Exact.lo pt) (Exact.hi pt) add i n) (hn : n ≤ qlast) :
    Signed i ∧ Signed (value add i n) := by
  obtain ⟨n, rfl⟩ : ∃ m, n = m + 1 := ⟨n - 1, by omega⟩
  obtain ⟨hfirst, -, -, hnonneg, hlt⟩ := fits_bounds hr.windows h hn
  obtain ⟨-, -, -, -, hone⟩ := fits_bounds hr.windows
    (h.take (Nat.succ_le_succ (Nat.zero_le n))) (by omega)
  rw [zero_add, value_one] at hone
  exact ⟨⟨by omega, by omega⟩, ⟨by omega, by omega⟩⟩

theorem WindowsOf.bounded (hr : WindowsOf sc pt qlast) {i : ℤ} (hpos : 1 ≤ count)
    (h : Fits (Exact.lo pt) (Exact.hi pt) add i count) (hn : count < qlast)
    (hge : -0x8000 ≤ add) (hle : add ≤ 0x7fff) : Bounded pt add count i := by
  obtain ⟨n, rfl⟩ : ∃ n, count = n + 1 := ⟨count - 1, by omega⟩
  have hw := hr.windows
  have hshort := hr.short
  obtain ⟨hi₀, hi₁, hadd₀, hadd₁⟩ := next_bounds hw h hn.le hge hle
  have hmax : ((clockDiffMax : ℕ) : ℤ) = 805306368 := rfl
  obtain ⟨hlo, hlohi, hhi⟩ := hr.point hn
  have hfactor := Exact.addfactor_eq (n + 1 + 1)
  refine ⟨⟨by omega, by omega⟩, (hr.signed hpos h hn.le).1, ?_, ?_, ?_⟩
  · rw [hfactor]
    exact ⟨by omega, by omega, by omega⟩
  · rw [hfactor]
    exact ⟨by omega, by omega, by omega⟩
  · have hsucc := choose_two_succ (n + 1)
    exact (choose_lt hw h hn.le).imp_right fun hchoose => by omega

theorem longest_succ (sc : State) (add : Int32) (left count : ℕ) (least most i : Int32) :
    longest sc add (left + 1) count least most i =
      let n := Int32.ofNat (count + 1)
      let c := add * (n * (n - 1) / 2)
      let nextmin := raise least ((minmaxPoint sc count).minp - c) n
      let nextmax := lower most ((minmaxPoint sc count).maxp - c) n
      if nextmin > nextmax then
        .stopped (count + 1) (minmaxPoint sc count) nextmin nextmax i
      else longest sc add left (count + 1) nextmin nextmax nextmax :=
  rfl

/-- **THE INNER LOOP IN WORDS** does what the one in integers does. -/
theorem longest_words (hr : WindowsOf sc pt qlast) (hge : -0x8000 ≤ add) (hle : add ≤ 0x7fff)
    {left : ℕ} (h : Exact.Inner pt add outerMin outerMax count least most)
    (hn : count + left ≤ qlast) :
    longest sc (.ofInt add) left count (.ofInt least) (.ofInt most)
        (.ofInt most) = (Exact.longest pt add left count least most most).words := by
  induction left generalizing count least most with
  | zero => rfl
  | succ left ih =>
    have hleast := hr.bounded h.pos h.fits_least (by omega) hge hle
    have hmost := hr.bounded h.pos h.fits_most (by omega) hge hle
    have hshort := hr.short
    have hcount : Int32.ofNat (count + 1) = Int32.ofInt ((count + 1 : ℕ) : ℤ) :=
      Int32.ofInt_eq_ofNat.symm
    have hc : Int32.ofInt add * (.ofNat (count + 1) *
        (.ofNat (count + 1) - 1) / 2) = Int32.ofInt (add * Exact.addfactor (count + 1)) :=
      mul_addfactor_words (Nat.succ_pos count) (by omega) hmost.factor
    have hmin : Signed (Exact.nextLeast pt add count least) :=
      raise_signed hleast.minp hleast.interval
    have hmax : Signed (Exact.nextMost pt add count most) := lower_signed hmost.maxp hmost.interval
    rw [longest_succ, hr.points count (by omega), Exact.longest_succ]
    dsimp only [Exact.Points.words]
    rw [hc, hcount, ← Int32.ofInt_sub, ← Int32.ofInt_sub,
      raise_words hleast.minp hleast.product, lower_words hmost.maxp hmost.product]
    change (if Int32.ofInt (Exact.nextLeast pt add count least) >
      Int32.ofInt (Exact.nextMost pt add count most) then _ else _) = _
    by_cases hstop : Exact.nextLeast pt add count least > Exact.nextMost pt add count most
    · rw [if_pos ((hmax.ofInt_lt_iff hmin).mpr hstop), if_pos hstop]
      rfl
    · rw [if_neg fun hc => hstop ((hmax.ofInt_lt_iff hmin).mp hc), if_neg hstop]
      exact ih (h.next (not_lt.mp hstop)) (by omega)

end Inner

/-! ## The best sequence -/

/-- In the words of a move. -/
def Exact.Move.words (m : Exact.Move) : StepMove :=
  ⟨UInt32.ofInt m.interval, UInt16.ofNat m.count, Int16.ofInt m.add⟩

/-- In 32 bits. -/
def Exact.Bisect.words (b : Exact.Bisect) : Stepcompress.Bisect where
  outerMininterval := Int32.ofInt b.outerMininterval
  outerMaxinterval := Int32.ofInt b.outerMaxinterval
  add := Int32.ofInt b.add
  minadd := Int32.ofInt b.minadd
  maxadd := Int32.ofInt b.maxadd
  bestinterval := Int32.ofInt b.best.bestinterval
  bestcount := b.best.bestcount
  bestadd := Int32.ofInt b.best.bestadd
  bestreach := Int32.ofInt b.best.bestreach
  zerointerval := Int32.ofInt b.best.zerointerval
  zerocount := b.best.zerocount

theorem result_words (b : Exact.Bisect) : b.words.result = b.best.result.words := by
  rw [Bisect.result, Exact.Best.result, apply_ite Exact.Move.words]
  refine if_congr Iff.rfl ?_ ?_
  · exact congrArg (fun x => StepMove.mk x _ 0) (toUInt32_ofInt _)
  · show StepMove.mk (Int32.ofInt _).toUInt32 _ (Int32.ofInt _).toInt16 = _
    rw [toUInt32_ofInt, Int32.toInt16_ofInt]
    rfl

theorem reach_words {add i : ℤ} {count : ℕ} (hpos : 1 ≤ count) (hlt : count < 2 ^ 16)
    (hsmall : add = 0 ∨ count.choose 2 < 2 ^ 30) :
    reach (.ofInt add) (.ofInt i) count = Int32.ofInt (Exact.reach add i count) := by
  rw [reach, mul_addfactor_words hpos hlt hsmall, Exact.reach, Int32.ofInt_add,
    Int32.ofInt_mul i, Int32.ofInt_eq_ofNat]

section Best

variable {sc : State} {pt : ℕ → Exact.Points} {qlast n : ℕ}
  {add outerMin outerMax least i : ℤ} {b : Exact.Bisect}
  (hr : WindowsOf sc pt qlast)
include hr

theorem WindowsOf.known_signed {best : Exact.Best}
    (h : Exact.Known pt qlast best) : Signed best.bestinterval ∧ Signed best.bestreach := by
  rcases h with rfl | ⟨hkept, -⟩
  · exact ⟨⟨by decide, by decide⟩, ⟨by decide, by decide⟩⟩
  · rw [hkept.reach]
    exact hr.signed hkept.best.pos hkept.best.fits hkept.best.le

theorem WindowsOf.factor (hpos : 1 ≤ n)
    (h : Fits (Exact.lo pt) (Exact.hi pt) add i n) (hn : n ≤ qlast) :
    add = 0 ∨ n.choose 2 < 2 ^ 30 := by
  obtain ⟨n, rfl⟩ : ∃ m, n = m + 1 := ⟨n - 1, by omega⟩
  exact (choose_lt hr.windows h hn).imp_right fun hchoose => by omega

theorem improves_words (h : Exact.Known pt qlast b.best)
    (hin : Exact.Inner pt b.add outerMin outerMax n least i) (hn : n ≤ qlast) :
    b.words.improves (.ofInt i) n = b.best.improves b.add i n := by
  obtain ⟨hi, hvalue⟩ := hr.signed hin.pos hin.fits_most hn
  obtain ⟨hbest, hbestreach⟩ := hr.known_signed h
  have hshort := hr.short
  have hreach := @reach_words b.add i n hin.pos (by omega) (hr.factor hin.pos hin.fits_most hn)
  rw [← Exact.reach_eq] at hvalue
  have hgt := hbestreach.ofInt_lt_iff hvalue
  have heq := hvalue.ofInt_inj hbestreach
  have hinterval := hbest.ofInt_lt_iff hi
  rw [Bisect.improves, Exact.Best.improves]
  show (decide (reach (.ofInt b.add) (.ofInt i) n > Int32.ofInt b.best.bestreach) ||
    (decide (reach (.ofInt b.add) (.ofInt i) n = Int32.ofInt b.best.bestreach) &&
      decide (.ofInt i > Int32.ofInt b.best.bestinterval))) =
    (decide (Exact.reach b.add i n > b.best.bestreach) ||
      (decide (Exact.reach b.add i n = b.best.bestreach) && decide (i > b.best.bestinterval)))
  rw [hreach, decide_eq_decide.mpr hgt, decide_eq_decide.mpr heq, decide_eq_decide.mpr hinterval]

theorem update_words (h : Exact.Known pt qlast b.best)
    (hin : Exact.Inner pt b.add outerMin outerMax n least i) (hn : n ≤ qlast)
    (hge : -0x8000 ≤ b.add) (hle : b.add ≤ 0x7fff) :
    b.words.update (.ofInt i) n =
      ({ b with best := b.best.update b.add i n } : Exact.Bisect).words := by
  have hshort := hr.short
  have hreach : reach b.words.add (.ofInt i) n = Int32.ofInt (Exact.reach b.add i n) :=
    reach_words hin.pos (by omega) (hr.factor hin.pos hin.fits_most hn)
  have hadd : Signed b.add := ⟨by omega, by omega⟩
  have hzero : b.words.add = 0 ↔ b.add = 0 := hadd.ofInt_inj signed_zero
  rw [Bisect.update, improves_words hr h hin hn]
  by_cases hbetter : b.best.improves b.add i n = true
  · rw [if_pos hbetter, Exact.Best.update, if_pos hbetter, hreach]
    by_cases h0 : b.add = 0
    · rw [if_pos (hzero.mpr h0), if_pos (hzero.mpr h0), if_pos h0, if_pos h0]
      rfl
    · rw [if_neg fun hc => h0 (hzero.mp hc), if_neg fun hc => h0 (hzero.mp hc), if_neg h0,
        if_neg h0]
      rfl
  · rw [if_neg hbetter, Exact.Best.update, if_neg hbetter]

end Best

/-! ## The range of `add` -/

/-- The three parts of `Bisect.narrow`. -/
def Bisect.turn (b : Bisect) (nextcount : ℕ) (nextpoint : Points)
    (nextmininterval nextmaxinterval interval : Int32) : Bisect :=
  if reach b.add interval nextcount < nextpoint.minp then
    { b with minadd := b.add + 1, outerMaxinterval := nextmaxinterval }
  else { b with maxadd := b.add - 1, outerMininterval := nextmininterval }

/-- The limits of `add` from `quadratic_dev`. -/
def Bisect.clamp (sc : State) (nextcount : ℕ) (b : Bisect) : Bisect :=
  let count := UInt32.ofNat (nextcount - 1)
  if count > 1 then
    let errdelta := (sc.maxError * quadraticDev / (count * count)).toInt32
    { b with
      minadd := if b.minadd < b.add - errdelta then b.add - errdelta else b.minadd
      maxadd := if b.maxadd > b.add + errdelta then b.add + errdelta else b.maxadd }
  else b

/-- The limits of `add` from the next point. -/
def Bisect.limit (nextcount : ℕ) (nextpoint : Points) (b : Bisect) : Bisect :=
  let n := Int32.ofNat nextcount
  { b with
    minadd := raise b.minadd (nextpoint.minp - b.outerMaxinterval * n) (n * (n - 1) / 2)
    maxadd := lower b.maxadd (nextpoint.maxp - b.outerMininterval * n) (n * (n - 1) / 2) }

theorem narrow_eq (sc : State) (b : Bisect) (nextcount : ℕ) (nextpoint : Points)
    (nextmininterval nextmaxinterval interval : Int32) :
    b.narrow sc nextcount nextpoint nextmininterval nextmaxinterval interval =
      ((b.turn nextcount nextpoint nextmininterval nextmaxinterval interval).clamp sc
        nextcount).limit nextcount nextpoint :=
  rfl

/-- `errdelta` in words. -/
theorem errdelta_words {maxError : UInt32} (hmax : maxError.toNat < 2 ^ 15) {n : ℕ}
    (hn : n ≤ 0x200) (hpos : 1 < n) :
    (maxError * quadraticDev / (.ofNat n * UInt32.ofNat n)).toInt32 =
      Int32.ofInt (((maxError.toNat : ℤ) * 11).tdiv ((n : ℤ) * n)) := by
  have hsquare : n * n ≤ 0x200 * 0x200 := Nat.mul_le_mul hn hn
  have hcount : (UInt32.ofNat n).toNat = n := UInt32.toNat_ofNat_of_lt' (by
    show n < 2 ^ 32
    omega)
  have hnat : (maxError * quadraticDev / (.ofNat n * UInt32.ofNat n)).toNat =
      maxError.toNat * 11 / (n * n) := by
    rw [UInt32.toNat_div, UInt32.toNat_mul, UInt32.toNat_mul, hcount,
      show quadraticDev.toNat = 11 from rfl, Nat.mod_eq_of_lt (by omega),
      Nat.mod_eq_of_lt (by omega)]
  have hle : maxError.toNat * 11 / (n * n) ≤ maxError.toNat * 11 := Nat.div_le_self _ _
  have htoInt := toInt_toInt32 (maxError * quadraticDev / (.ofNat n * UInt32.ofNat n))
  rw [if_pos (by omega), hnat] at htoInt
  rw [← Int32.ofInt_toInt (UInt32.toInt32 _), htoInt]
  congr 1

/-- The deviation allows little change of `add` when a sequence is long. -/
theorem errdelta_le {maxError n : ℕ} (hmax : maxError < 2 ^ 15) (hn : 362 ≤ n) :
    ((maxError : ℤ) * 11).tdiv ((n : ℤ) * n) ≤ 2 := by
  have hsquare : (362 : ℤ) * 362 ≤ n * n := mul_le_mul (by omega) (by omega) (by decide) (by omega)
  rw [Int.tdiv_eq_ediv_of_nonneg (by omega), ← Int.lt_add_one_iff,
    Int.ediv_lt_iff_lt_mul (by omega)]
  omega

section Range

variable {sc : State} {pt : ℕ → Exact.Points} {qlast n : ℕ} {least i : ℤ}
  {b t : Exact.Bisect}

theorem turn_words (hr : WindowsOf sc pt qlast)
    (hin : Exact.Inner pt b.add b.outerMininterval b.outerMaxinterval n least i)
    (hn : n < qlast) (hge : -0x8000 ≤ b.add) (hle : b.add ≤ 0x7fff) (x y : ℤ) :
    b.words.turn (n + 1) (pt n).words (.ofInt x) (.ofInt y) (.ofInt i) =
      (b.turn (n + 1) (pt n) x y i).words := by
  have hbounded := hr.bounded hin.pos hin.fits_most hn hge hle
  have hshort := hr.short
  have hreach : reach b.words.add (.ofInt i) (n + 1) =
      Int32.ofInt (Exact.reach b.add i (n + 1)) :=
    reach_words (Nat.succ_pos n) (by omega) hbounded.factor
  have hminp : Signed (pt n).minp := by
    obtain ⟨hlo, hlohi, hhi⟩ := hr.point hn
    exact ⟨by omega, by omega⟩
  have hnext : Signed (Exact.reach b.add i (n + 1)) := by
    obtain ⟨m, rfl⟩ : ∃ m, n = m + 1 := ⟨n - 1, by have := hin.pos; omega⟩
    obtain ⟨-, hlast, hlast', hvalue, hvalue'⟩ := fits_bounds hr.windows hin.fits_most hn.le
    have hsucc := value_succ b.add i (m + 1)
    have hmul : b.add * ((m + 1 : ℕ) : ℤ) = b.add * m + b.add := by
      push_cast
      ring
    rw [Exact.reach_eq]
    exact ⟨by omega, by omega⟩
  have hlt : reach b.words.add (.ofInt i) (n + 1) < (pt n).words.minp ↔
      Exact.reach b.add i (n + 1) < (pt n).minp := by
    rw [hreach]
    exact hnext.ofInt_lt_iff hminp
  rw [Bisect.turn, Exact.Bisect.turn, apply_ite Exact.Bisect.words]
  refine if_congr hlt ?_ ?_
  · dsimp only [Exact.Bisect.words]
    rw [Int32.ofInt_add]
    rfl
  · dsimp only [Exact.Bisect.words]
    rw [Int32.ofInt_sub]
    rfl

/-- The range of `add` in a turn. -/
structure Small (t : Exact.Bisect) : Prop where
  add_ge : -0x8000 ≤ t.add
  add_le : t.add ≤ 0x7fff
  minadd_ge : -0x8000 ≤ t.minadd
  minadd_le : t.minadd ≤ 0x8000
  maxadd_ge : -0x8001 ≤ t.maxadd
  maxadd_le : t.maxadd ≤ 0x7fff

theorem small_of_turned (h : Exact.Search pt qlast b) (ht : Exact.Turned pt b i t) : Small t := by
  have hmin := h.minadd_ge
  have hmin' := h.minadd_le
  have hmax := h.le_maxadd
  have hmax' := h.maxadd_le
  obtain ⟨hadd, -, -, -, -, -, hmin₁, hmin₂, hmax₁, hmax₂, -⟩ := ht
  exact ⟨by omega, by omega, by omega, by omega, by omega, by omega⟩

theorem clamp_words (hmax : sc.maxError.toNat < 2 ^ 15) (ht : Small t) (hn : n ≤ 0x200) :
    t.words.clamp sc (n + 1) = (t.clamp sc.maxError.toNat n).words := by
  have hcount : (UInt32.ofNat n).toNat = n := UInt32.toNat_ofNat_of_lt' (by
    show n < 2 ^ 32
    omega)
  have hmany : UInt32.ofNat n > 1 ↔ n > 1 := by
    rw [gt_iff_lt, UInt32.lt_iff_toNat_lt, hcount]
    rfl
  rw [Bisect.clamp, Exact.Bisect.clamp, Nat.add_sub_cancel]
  by_cases hpos : n > 1
  · have hdelta := Exact.errdelta_nonneg sc.maxError.toNat n
    have hdelta' : ((sc.maxError.toNat : ℤ) * 11).tdiv ((n : ℤ) * n) ≤ 360437 := by
      rw [Int.tdiv_eq_ediv_of_nonneg (by omega)]
      have hself : (sc.maxError.toNat : ℤ) * 11 / ((n : ℤ) * n) ≤ sc.maxError.toNat * 11 :=
        Int.ediv_le_self _ (by omega)
      omega
    dsimp only
    rw [if_pos (hmany.mpr hpos), if_pos hpos, errdelta_words hmax hn hpos]
    obtain ⟨hadd, hadd', hmin, hmin', hmax₁, hmax₂⟩ := ht
    generalize ((sc.maxError.toNat : ℤ) * 11).tdiv ((n : ℤ) * n) = errdelta at hdelta hdelta' ⊢
    have hmin₁ : Signed t.minadd := ⟨by omega, by omega⟩
    have hmax₃ : Signed t.maxadd := ⟨by omega, by omega⟩
    have hlow : Signed (t.add - errdelta) := ⟨by omega, by omega⟩
    have hhigh : Signed (t.add + errdelta) := ⟨by omega, by omega⟩
    simp only [Exact.Bisect.words, ← Int32.ofInt_sub, ← Int32.ofInt_add, gt_iff_lt,
      hmin₁.ofInt_ite hlow, hhigh.ofInt_ite hmax₃]
  · rw [if_neg hpos]
    exact if_neg fun hc => hpos (hmany.mp hc)

/-- After a long sequence the range of `add` is narrow. -/
theorem clamp_near {maxError : ℕ} (hmax : maxError < 2 ^ 15) (hn : 362 ≤ n) :
    t.add - 2 ≤ (t.clamp maxError n).minadd ∧ (t.clamp maxError n).maxadd ≤ t.add + 2 := by
  have hdelta := errdelta_le hmax hn
  rw [Exact.Bisect.clamp, if_pos (by omega)]
  dsimp only
  generalize ((maxError : ℤ) * 11).tdiv ((n : ℤ) * n) = errdelta at hdelta ⊢
  constructor
  · split <;> omega
  · split <;> omega

theorem choose_le_of_short (h : n ≤ 0x200) : ((n + 1).choose 2 : ℤ) * 2 ≤ 513 * 512 := by
  rw [choose_two_mul_two]
  exact mul_le_mul (by omega) (by omega) (by omega) (by decide)

/-- **PRODUCTS** of an `add` in the range by `addfactor` do not overflow: while the sequence is
    short because `add` has 16 bits, later because `add` is near one whose sequence fits. -/
theorem product_signed (hw : Windows (Exact.lo pt) (Exact.hi pt) qlast clockDiffMax)
    {add x : ℤ} (hpos : 1 ≤ n) (h : Fits (Exact.lo pt) (Exact.hi pt) add i n)
    (hn : n ≤ qlast) (hge : -0x8000 ≤ add) (hle : add ≤ 0x7fff) (hshort : n ≤ 0x200)
    (hx : -0x8001 ≤ x) (hx' : x ≤ 0x8000) (hnear : 362 ≤ n → add - 2 ≤ x ∧ x ≤ add + 2) :
    Signed (x * Exact.addfactor (n + 1)) := by
  have htwice := choose_two_mul_two n
  rw [Exact.addfactor_eq]
  have hnonneg : (0 : ℤ) ≤ (n + 1).choose 2 := Int.natCast_nonneg _
  by_cases hlong : 362 ≤ n
  · obtain ⟨m, rfl⟩ : ∃ m, n = m + 1 := ⟨n - 1, by omega⟩
    obtain ⟨-, -, hadd, hadd'⟩ := next_bounds hw h hn hge hle
    obtain ⟨hlow, hhigh⟩ := hnear hlong
    have hchoose := choose_le_of_short hshort
    have hlow' : (add - 2) * ((m + 1 + 1).choose 2 : ℤ) ≤ x * (m + 1 + 1).choose 2 :=
      mul_le_mul_of_nonneg_right hlow hnonneg
    have hhigh' : x * ((m + 1 + 1).choose 2 : ℤ) ≤ (add + 2) * (m + 1 + 1).choose 2 :=
      mul_le_mul_of_nonneg_right hhigh hnonneg
    rw [sub_mul] at hlow'
    rw [add_mul] at hhigh'
    exact ⟨by omega, by omega⟩
  · have hsquare : ((n : ℤ) + 1) * n ≤ 362 * 361 :=
      mul_le_mul (by omega) (by omega) (by omega) (by decide)
    have hlow : -0x8001 * ((n + 1).choose 2 : ℤ) ≤ x * (n + 1).choose 2 :=
      mul_le_mul_of_nonneg_right hx hnonneg
    have hhigh : x * ((n + 1).choose 2 : ℤ) ≤ 0x8000 * (n + 1).choose 2 :=
      mul_le_mul_of_nonneg_right hx' hnonneg
    exact ⟨by omega, by omega⟩

variable (hr : WindowsOf sc pt qlast)
include hr

/-- The bounds of the values that the next point is compared with. -/
theorem outer_bounds (ht : Exact.Turned pt b i t) (hpos : 1 ≤ n)
    (h : Fits (Exact.lo pt) (Exact.hi pt) b.add i n) (hn : n < qlast) (hshort : n ≤ 0x200)
    (hge : -0x8000 ≤ b.add) (hle : b.add ≤ 0x7fff) :
    Divides ((pt n).minp - t.outerMaxinterval * ((n + 1 : ℕ) : ℤ)) (Exact.addfactor (n + 1)) ∧
      Divides ((pt n).maxp - t.outerMininterval * ((n + 1 : ℕ) : ℤ)) (Exact.addfactor (n + 1)) := by
  have hpositive := Exact.addfactor_pos (Nat.succ_le_succ hpos)
  have hchoose := choose_le_of_short hshort
  have hfactor := Exact.addfactor_eq (n + 1)
  obtain ⟨hlo, hlohi, hhi⟩ := hr.point hn
  -- the outer range is within the first window, whose width is at most `max_error`
  have hfirst := hr.first
  have herror := hr.maxError
  have hstart := hr.windows.first
  obtain ⟨-, -, hlo₁, hmin, hmost, hhi₁, -⟩ := ht
  have hcount : (0 : ℤ) ≤ ((n + 1 : ℕ) : ℤ) := Int.natCast_nonneg _
  have hlow : 0 * ((n + 1 : ℕ) : ℤ) ≤ t.outerMininterval * ((n + 1 : ℕ) : ℤ) :=
    mul_le_mul_of_nonneg_right (by omega) hcount
  have hbetween : t.outerMininterval * ((n + 1 : ℕ) : ℤ) ≤ t.outerMaxinterval * ((n + 1 : ℕ) : ℤ) :=
    mul_le_mul_of_nonneg_right (by omega) hcount
  have hhigh : t.outerMaxinterval * ((n + 1 : ℕ) : ℤ) ≤ (i + 32767) * ((n + 1 : ℕ) : ℤ) :=
    mul_le_mul_of_nonneg_right (by omega) hcount
  have hinterval : i * ((n + 1 : ℕ) : ℤ) ≤ 2013265920 := by
    obtain ⟨m, rfl⟩ : ∃ m, n = m + 1 := ⟨n - 1, by omega⟩
    exact (next_bounds hr.windows h hn.le hge hle).2.1
  rw [add_mul] at hhigh
  constructor
  · exact ⟨hpositive, by omega, by omega⟩
  · exact ⟨hpositive, by omega, by omega⟩

theorem limit_words (hs : Exact.Search pt qlast b) (ht : Exact.Turned pt b i t) (hpos : 1 ≤ n)
    (h : Fits (Exact.lo pt) (Exact.hi pt) b.add i n) (hn : n < qlast) (hshort : n ≤ 0x200)
    (hnear : 362 ≤ n → b.add - 2 ≤ t.minadd ∧ t.maxadd ≤ b.add + 2) :
    t.words.limit (n + 1) (pt n).words = (t.limit (n + 1) (pt n)).words ∧
      Signed (t.limit (n + 1) (pt n)).minadd ∧ Signed (t.limit (n + 1) (pt n)).maxadd := by
  obtain ⟨hge, hle⟩ := hs.add_mem
  obtain ⟨hminp, hmaxp⟩ := outer_bounds hr ht hpos h hn hshort hge hle
  have hsmall := small_of_turned hs ht
  obtain ⟨-, -, hmin, hmin', hmax, hmax'⟩ := hsmall
  have hmin₁ := ht.minadd_le
  have hmax₁ := ht.le_maxadd
  have hproduct := product_signed hr.windows hpos h hn.le hge hle hshort
    (show -0x8001 ≤ t.minadd by omega) hmin' fun hlong => ⟨(hnear hlong).1, by omega⟩
  have hproduct' := product_signed hr.windows hpos h hn.le hge hle hshort hmax
    (show t.maxadd ≤ 0x8000 by omega) fun hlong => ⟨by omega, (hnear hlong).2⟩
  have hchoose := choose_le_of_short hshort
  have hlast := hr.short
  have hfactor := addfactor_words (Nat.succ_pos n) (show n + 1 < 2 ^ 16 by omega)
    (show (n + 1).choose 2 < 2 ^ 30 by omega)
  have hcount : Int32.ofNat (n + 1) = Int32.ofInt ((n + 1 : ℕ) : ℤ) := Int32.ofInt_eq_ofNat.symm
  refine ⟨?_, raise_signed hminp ⟨by omega, by omega⟩, lower_signed hmaxp ⟨by omega, by omega⟩⟩
  rw [Bisect.limit]
  dsimp only [Exact.Bisect.words, Exact.Points.words]
  rw [hfactor, hcount, ← Int32.ofInt_mul, ← Int32.ofInt_mul, ← Int32.ofInt_sub,
    ← Int32.ofInt_sub, raise_words hminp hproduct, lower_words hmaxp hproduct']
  rfl

theorem narrow_words (hs : Exact.Search pt qlast b)
    (hin : Exact.Inner pt b.add b.outerMininterval b.outerMaxinterval n least i)
    (hn : n < qlast) (hshort : n ≤ 0x200) :
    let x := Exact.nextLeast pt b.add n least
    let y := Exact.nextMost pt b.add n i
    let t := b.narrow sc.maxError.toNat (n + 1) (pt n) x y i
    b.words.narrow sc (n + 1) (pt n).words (.ofInt x) (.ofInt y) (.ofInt i) =
        t.words ∧ Signed t.minadd ∧ Signed t.maxadd := by
  intro x y t
  obtain ⟨hge, hle⟩ := hs.add_mem
  have hturned := hs.turn hr.windows hin hn
  have hclamped := @Exact.Turned.clamp pt n sc.maxError.toNat i b _ hturned
  have hlimit := limit_words hr hs hclamped hin.pos hin.fits_most hn hshort fun hlong => by
    have hnear := @clamp_near n (b.turn (n + 1) (pt n) x y i) _ hr.maxError hlong
    rw [hturned.add] at hnear
    exact hnear
  rw [narrow_eq, turn_words hr hin hn hge hle, clamp_words hr.maxError
    (small_of_turned hs hturned) hshort]
  exact hlimit

/-! ## The outer loop -/

/-- What the outer loop in words does after a turn. -/
def Exact.Turn.run (sc : State) (qlast fuel : ℕ) : Exact.Turn → Option StepMove
  | .found m => some m.words
  | .again b => Stepcompress.bisect sc qlast fuel b.words

/-- **A TURN IN WORDS** does what the turn in integers does. -/
theorem bisect_step (hq : 1 ≤ qlast) (hs : Exact.Search pt qlast b)
    (fuel : ℕ) : bisect sc qlast (fuel + 1) b.words =
      (b.step pt sc.maxError.toNat qlast).run sc qlast fuel := by
  obtain ⟨hge, hle⟩ := hs.add_mem
  have hlength : 1 + (qlast - 1) = qlast := by omega
  have hlongest : longest sc b.words.add (qlast - 1) 1 b.words.outerMininterval
      b.words.outerMaxinterval b.words.outerMaxinterval = (Exact.longest pt b.add (qlast - 1) 1
        b.outerMininterval b.outerMaxinterval b.outerMaxinterval).words :=
    longest_words hr hge hle hs.inner (le_of_eq hlength)
  rw [bisect, Exact.Bisect.step, hlongest]
  rcases @Exact.longest_spec pt b.add _ _ _ _ _ (qlast - 1) hs.inner with
    ⟨i, hdone, -⟩ | ⟨n, least, i, hstop, hin, hn, -⟩
  · rw [hdone]
    show some (StepMove.mk (Int32.ofInt i).toUInt32 _ (Int32.ofInt b.add).toInt16) = _
    rw [toUInt32_ofInt, Int32.toInt16_ofInt]
    rfl
  · rw [hlength] at hn
    rw [hstop]
    dsimp only [Exact.Sequence.words]
    rw [Nat.add_sub_cancel, improves_words hr hs.known hin hn.le,
      update_words hr hs.known hin hn.le hge hle]
    by_cases hend : (b.best.improves b.add i n && decide (n > 0x200)) = true
    · rw [if_pos hend, if_pos hend, result_words]
      rfl
    rw [if_neg hend, if_neg hend]
    obtain ⟨hshort, hs'⟩ := hs.update hr.windows hin hn hend
    obtain ⟨hnarrow, hmin, hmax⟩ := narrow_words hr hs' hin hn hshort
    have hrange := @Exact.Search.narrow pt qlast n sc.maxError.toNat _ least i _ hs' hr.windows
      hin hn
    dsimp only at hnarrow hmin hmax hrange
    rw [hnarrow]
    generalize Exact.Bisect.narrow sc.maxError.toNat
      { b with best := b.best.update b.add i n } (n + 1) (pt n)
      (Exact.nextLeast pt b.add n least) (Exact.nextMost pt b.add n i) i = t at hmin hmax hrange ⊢
    have hempty : t.words.minadd > t.words.maxadd ↔ t.minadd > t.maxadd := hmax.ofInt_lt_iff hmin
    by_cases hdone : t.minadd > t.maxadd
    · rw [if_pos (hempty.mpr hdone), if_pos hdone, result_words, hrange.best]
      rfl
    · rw [if_neg fun hc => hdone (hempty.mp hc), if_neg hdone]
      have hlow := hs.minadd_ge.trans hrange.minadd_ge
      have hhigh := hrange.maxadd_le.trans hs.maxadd_le
      have hdiff : Signed (t.maxadd - t.minadd) := ⟨by omega, by omega⟩
      have hquarter : t.words.maxadd - (t.words.maxadd - t.words.minadd) / 4 =
          Int32.ofInt (t.maxadd - (t.maxadd - t.minadd).tdiv 4) := by
        rw [Int32.ofInt_sub, hdiff.ofInt_tdiv ⟨by decide, by decide⟩, Int32.ofInt_sub]
        rfl
      rw [hquarter]
      rfl

/-- The search in words is the search in integers. -/
theorem bisect_words (hq : 1 ≤ qlast) {fuel : ℕ} (hs : Exact.Search pt qlast b) :
    bisect sc qlast fuel b.words =
      (Exact.bisect pt sc.maxError.toNat qlast fuel b).map Exact.Move.words := by
  induction fuel generalizing b with
  | zero => rfl
  | succ fuel ih =>
    rw [bisect_step hr hq hs, Exact.bisect]
    rcases @Exact.Search.step pt qlast sc.maxError.toNat _ b hs hr.windows hq with
      ⟨m, hstep, -⟩ | ⟨b', hstep, hs', -⟩
    · rw [hstep]
      rfl
    · rw [hstep]
      exact ih hs'

end Range

end Stepcompress
