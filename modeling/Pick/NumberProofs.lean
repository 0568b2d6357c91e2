import Mathlib

/-! # Numerals

A numeral of a field rests on a proof that it is at least two.  Here these proofs
have names for the numerals that definitions of several models share, so that a
definition is the same whichever of them stand before it. -/

namespace Numeral

instance two : Nat.AtLeastTwo 2 := inferInstance

instance four : Nat.AtLeastTwo 4 := inferInstance

instance five : Nat.AtLeastTwo 5 := inferInstance

instance ten : Nat.AtLeastTwo 10 := inferInstance

instance twenty : Nat.AtLeastTwo 20 := inferInstance

instance hundred : Nat.AtLeastTwo 100 := inferInstance

instance halfTurn : Nat.AtLeastTwo 180 := inferInstance

instance thousand : Nat.AtLeastTwo 1000 := inferInstance

instance tenThousand : Nat.AtLeastTwo 10000 := inferInstance

instance billion : Nat.AtLeastTwo 1000000000 := inferInstance

instance never : Nat.AtLeastTwo 9999999999999999 := inferInstance

end Numeral

/-! # Double precision

An operation on doubles gives the exact result, rounded to the nearest number of 53
bits whose last bit is at least 2^-1074, of two to the even one.  Numbers are elements
of an ordered field; none here comes near 2^1024, where doubles end. -/

namespace Double

/-- Numbers that are doubles. -/
def IsDouble {K : Type} [Field K] (x : K) : Prop :=
  ∃ n e : ℤ, |n| ≤ 2 ^ 53 ∧ -1074 ≤ e ∧ x = n * 2 ^ e

variable {K : Type} [Field K] {x y r : K} {n : ℤ}

theorem isDouble_int (h : |n| ≤ 2 ^ 53) : IsDouble (n : K) :=
  ⟨n, 0, h, by decide, by rw [zpow_zero, mul_one]⟩

theorem isDouble_zero : IsDouble (0 : K) := Int.cast_zero (R := K) ▸ isDouble_int (by decide)

/-- The first of 53 bits, in units of the last. -/
theorem cast_first_bit : (2 ^ 52 : K) = (2 ^ 52 : ℤ) := by rw [Int.cast_pow, Int.cast_ofNat]

theorem cast_neg_first_bit : (-2 ^ 52 : K) = (-2 ^ 52 : ℤ) := by
  rw [Int.cast_neg, cast_first_bit]

variable [LinearOrder K] [IsStrictOrderedRing K] [FloorRing K]

/-- The nearest integer, of two the even one. -/
def nearest (x : K) : ℤ :=
  if ⌊x + 1 / 2⌋ = x + 1 / 2 ∧ Odd ⌊x + 1 / 2⌋ then ⌊x + 1 / 2⌋ - 1 else ⌊x + 1 / 2⌋

/-- The exponent of the last bit. -/
def exponent (x : K) : ℤ := max (Int.log 2 |x| - 52) (-1074)

/-- A number rounded to double precision. -/
def rounded (x : K) : K := nearest (x / 2 ^ exponent x) * 2 ^ exponent x

/-- The conversion of a double to an integer, which drops the fraction. -/
def truncate (x : K) : ℤ := if 0 ≤ x then ⌊x⌋ else ⌈x⌉

/-! ## The nearest integer -/

theorem abs_nearest_sub_le (x : K) : |(nearest x : K) - x| ≤ 1 / 2 := by
  have hle := Int.floor_le (x + 1 / 2)
  have hlt := Int.lt_floor_add_one (x + 1 / 2)
  rw [nearest, abs_le]
  split
  · next htie =>
    rw [Int.cast_sub, htie.1, Int.cast_one]
    exact ⟨by linarith, by linarith⟩
  · exact ⟨by linarith, by linarith⟩

/-- An integer less than half away is the nearest one. -/
theorem nearest_eq (h : |(n : K) - x| < 1 / 2) : nearest x = n := by
  have hnear := abs_le.mp (abs_nearest_sub_le x)
  have hn := abs_lt.mp h
  have hlt : (nearest x : K) < (n + 1 : ℤ) := by
    push_cast
    linarith
  have hgt : ((n - 1 : ℤ) : K) < nearest x := by
    push_cast
    linarith
  have := Int.cast_lt.mp hlt
  have := Int.cast_lt.mp hgt
  omega

theorem nearest_mono (h : x ≤ y) : nearest x ≤ nearest y := by
  by_contra hlt
  have hx := abs_le.mp (abs_nearest_sub_le x)
  have hy := abs_le.mp (abs_nearest_sub_le y)
  have hnext : ((nearest y + 1 : ℤ) : K) ≤ nearest x := Int.cast_le.mpr (by omega)
  push_cast at hnext
  have heq : x = y := by linarith
  rw [heq] at hlt
  exact hlt le_rfl

/-- Of two, the even one. -/
theorem nearest_sub_half (n : ℤ) : nearest ((n : K) - 1 / 2) = if Odd n then n - 1 else n := by
  rw [nearest, sub_add_cancel, Int.floor_intCast]
  simp only [true_and]

theorem nearest_intCast (n : ℤ) : nearest (n : K) = n :=
  nearest_eq (by rw [sub_self, abs_zero]; norm_num)

/-! ## Bits -/

theorem two_zpow_pos (e : ℤ) : (0 : K) < 2 ^ e := zpow_pos two_pos e

omit [FloorRing K] in
theorem zpow_natCast_add (m : ℕ) (e : ℤ) : (2 : K) ^ (m + e) = 2 ^ m * 2 ^ e := by
  rw [zpow_add₀ two_ne_zero, zpow_natCast]

omit [IsStrictOrderedRing K] in
theorem le_exponent (x : K) : -1074 ≤ exponent x := le_max_right _ _

theorem abs_lt_bits (x : K) : |x| < 2 ^ 53 * 2 ^ exponent x := by
  refine (Int.lt_zpow_succ_log_self one_lt_two |x|).trans_le ?_
  rw [← zpow_natCast_add]
  refine zpow_le_zpow_right₀ one_le_two ?_
  rw [exponent]
  omega

/-- A number has 53 bits, unless it is below the smallest ones. -/
theorem first_bit_le (hx : x ≠ 0) (hexp : -1074 < exponent x) : 2 ^ 52 * 2 ^ exponent x ≤ |x| := by
  have hlog : ((52 : ℕ) : ℤ) + exponent x = Int.log 2 |x| := by
    rw [exponent] at hexp ⊢
    omega
  rw [← zpow_natCast_add, hlog]
  exact Int.zpow_log_le_self one_lt_two (abs_pos.mpr hx)

/-- The exponent of a number of 53 bits. -/
theorem exponent_eq {e : ℤ} (he : -1074 ≤ e) (hlo : 2 ^ 52 * 2 ^ e ≤ |x|)
    (hhi : |x| < 2 ^ 53 * 2 ^ e) : exponent x = e := by
  have hx : 0 < |x| := (mul_pos (by norm_num) (two_zpow_pos e)).trans_le hlo
  rw [← zpow_natCast_add] at hlo hhi
  have hlog := (Int.zpow_le_iff_le_log one_lt_two hx).mp (by exact_mod_cast hlo)
  have hlog' := (Int.lt_zpow_iff_log_lt one_lt_two hx).mp (by exact_mod_cast hhi)
  rw [exponent]
  omega

/-- A double is a multiple of the last bit of a number, or below all its bits. -/
theorem IsDouble.multiple_or_lt (h : IsDouble r) (hx : x ≠ 0) :
    (∃ k : ℤ, r = k * 2 ^ exponent x) ∨
      |r| < 2 ^ 52 * 2 ^ exponent x ∧ 2 ^ 52 * 2 ^ exponent x ≤ |x| := by
  obtain ⟨n, e, hn, he, rfl⟩ := h
  rcases le_or_gt (exponent x) e with hle | hlt
  · refine .inl ⟨n * 2 ^ (e - exponent x).toNat, ?_⟩
    push_cast
    rw [mul_assoc, ← zpow_natCast_add, Int.toNat_of_nonneg (by omega), sub_add_cancel]
  · have hn' : |(n : K)| ≤ 2 ^ 53 := by exact_mod_cast hn
    have hle : |(n : K) * 2 ^ e| ≤ 2 ^ 52 * 2 ^ exponent x :=
      calc |(n : K) * 2 ^ e| = |(n : K)| * 2 ^ e := by
            rw [abs_mul, abs_of_pos (a := (2 : K) ^ e) (two_zpow_pos e)]
        _ ≤ 2 ^ 53 * 2 ^ e := mul_le_mul_of_nonneg_right hn' (two_zpow_pos e).le
        _ = 2 ^ ((53 : ℕ) + e) := (zpow_natCast_add 53 e).symm
        _ ≤ 2 ^ ((52 : ℕ) + exponent x) := zpow_le_zpow_right₀ one_le_two (by omega)
        _ = 2 ^ 52 * 2 ^ exponent x := zpow_natCast_add 52 _
    rcases hle.lt_or_eq with hlt' | heq
    · exact .inr ⟨hlt', first_bit_le hx (by omega)⟩
    · rcases eq_or_eq_neg_of_abs_eq heq with heq | heq
      · exact .inl ⟨2 ^ 52, by rw [heq, ← cast_first_bit]⟩
      · exact .inl ⟨-2 ^ 52, by rw [heq, ← cast_neg_first_bit, neg_mul]⟩

/-! ## Rounding -/

theorem rounded_zero : rounded (0 : K) = 0 := by
  have hzero : nearest (0 : K) = 0 := Int.cast_zero (R := K) ▸ nearest_intCast 0
  rw [rounded, zero_div, hzero, Int.cast_zero, zero_mul]

section Multiple

variable {k : K} (hk : k = n)
include hk

/-- A multiple of the last bit is not passed. -/
theorem le_rounded_of_multiple (h : k * 2 ^ exponent x ≤ x) : k * 2 ^ exponent x ≤ rounded x := by
  have hle := nearest_mono ((le_div_iff₀ (two_zpow_pos _)).mpr h)
  rw [hk, nearest_intCast] at hle
  rw [hk]
  exact mul_le_mul_of_nonneg_right (Int.cast_le.mpr hle) (two_zpow_pos _).le

theorem rounded_le_of_multiple (h : x ≤ k * 2 ^ exponent x) : rounded x ≤ k * 2 ^ exponent x := by
  have hle := nearest_mono ((div_le_iff₀ (two_zpow_pos _)).mpr h)
  rw [hk, nearest_intCast] at hle
  rw [hk]
  exact mul_le_mul_of_nonneg_right (Int.cast_le.mpr hle) (two_zpow_pos _).le

end Multiple

/-- **A DOUBLE IS NOT PASSED** by rounding what is not below it. -/
theorem IsDouble.le_rounded (h : IsDouble r) (hle : r ≤ x) : r ≤ rounded x := by
  rcases eq_or_ne x 0 with rfl | hx
  · rwa [rounded_zero]
  rcases h.multiple_or_lt hx with ⟨k, rfl⟩ | ⟨hr, hlow⟩
  · exact le_rounded_of_multiple rfl hle
  · rcases abs_cases x with ⟨hpos, -⟩ | ⟨hneg, -⟩
    · rw [hpos] at hlow
      linarith [le_rounded_of_multiple cast_first_bit hlow, le_abs_self r]
    · linarith [neg_abs_le r]

theorem IsDouble.rounded_le (h : IsDouble r) (hle : x ≤ r) : rounded x ≤ r := by
  rcases eq_or_ne x 0 with rfl | hx
  · rwa [rounded_zero]
  rcases h.multiple_or_lt hx with ⟨k, rfl⟩ | ⟨hr, hlow⟩
  · exact rounded_le_of_multiple rfl hle
  · rcases abs_cases x with ⟨hpos, -⟩ | ⟨hneg, -⟩
    · linarith [le_abs_self r]
    · linarith [rounded_le_of_multiple (x := x) cast_neg_first_bit (by linarith), neg_abs_le r]

/-- **DOUBLES ARE EXACT**. -/
theorem IsDouble.rounded_eq (h : IsDouble x) : rounded x = x :=
  le_antisymm (h.rounded_le le_rfl) (h.le_rounded le_rfl)

/-- What rounding gives is a double. -/
theorem isDouble_rounded (x : K) : IsDouble (rounded x) := by
  refine ⟨nearest (x / 2 ^ exponent x), exponent x, ?_, le_exponent x, rfl⟩
  have hpos := two_zpow_pos (K := K) (exponent x)
  have hlt := abs_lt.mp (abs_lt_bits x)
  have hle := nearest_mono ((div_lt_iff₀ hpos).mpr hlt.2).le
  have hge := nearest_mono ((lt_div_iff₀ hpos).mpr (by rw [neg_mul]; exact hlt.1)).le
  rw [show (2 ^ 53 : K) = (2 ^ 53 : ℤ) by norm_num] at hle hge
  rw [nearest_intCast] at hle
  rw [← Int.cast_neg, nearest_intCast] at hge
  exact abs_le.mpr ⟨hge, hle⟩

/-- **THE ERROR** of rounding. -/
theorem abs_rounded_sub_le (x : K) :
    |rounded x - x| ≤ |x| / 2 ^ 53 + 2 ^ (-1075 : ℤ) := by
  rcases eq_or_ne x 0 with rfl | hx
  · rw [rounded_zero, sub_zero, abs_zero, zero_div, zero_add]
    exact (two_zpow_pos _).le
  have hpos := two_zpow_pos (K := K) (exponent x)
  have hround : rounded x - x =
      (nearest (x / 2 ^ exponent x) - x / 2 ^ exponent x) * 2 ^ exponent x := by
    rw [sub_mul, div_mul_cancel₀ _ hpos.ne']
    rfl
  have hhalf : |rounded x - x| ≤ 1 / 2 * 2 ^ exponent x := by
    rw [hround, abs_mul, abs_of_pos hpos]
    exact mul_le_mul_of_nonneg_right (abs_nearest_sub_le _) hpos.le
  refine hhalf.trans ?_
  rcases (le_exponent x).eq_or_lt with heq | hlt
  · have hlast : (2 : K) ^ exponent x = 2 ^ (-1075 : ℤ) * 2 := by
      rw [← heq, ← zpow_add_one₀ two_ne_zero]
      rfl
    rw [hlast]
    linarith [div_nonneg (abs_nonneg x) (show (0 : K) ≤ 2 ^ 53 by norm_num)]
  · have hfirst := first_bit_le hx hlt
    have hbits : 1 / 2 * 2 ^ exponent x ≤ |x| / 2 ^ 53 := by
      rw [le_div_iff₀ (by norm_num)]
      linarith
    exact hbits.trans (le_add_of_nonneg_right (two_zpow_pos _).le)

/-- A number of 53 bits, from the nearest multiple of its last bit. -/
theorem rounded_eq_of_near {e : ℤ} (he : -1074 ≤ e) (hlo : 2 ^ 52 * 2 ^ e ≤ |x|)
    (hhi : |x| < 2 ^ 53 * 2 ^ e) (hnear : |(n : K) - x / 2 ^ e| < 1 / 2) :
    rounded x = n * 2 ^ e := by
  rw [rounded, exponent_eq he hlo hhi, nearest_eq hnear]

/-- A product that is rounded and divided again. -/
theorem abs_rounded_div_sub_le {a : K} (ha : 1 ≤ |a|) (x : K) :
    |rounded (a * x) / a - x| ≤ |x| / 2 ^ 53 + 2 ^ (-1075 : ℤ) := by
  have hpos : 0 < |a| := lt_of_lt_of_le one_pos ha
  have hquotient : rounded (a * x) / a - x = (rounded (a * x) - a * x) / a := by
    rw [sub_div, mul_div_cancel_left₀ _ (abs_pos.mp hpos)]
  have htiny : (2 : K) ^ (-1075 : ℤ) ≤ 2 ^ (-1075 : ℤ) * |a| :=
    le_mul_of_one_le_right (two_zpow_pos _).le ha
  rw [hquotient, abs_div, div_le_iff₀ hpos, add_mul]
  refine (abs_rounded_sub_le (a * x)).trans (add_le_add (le_of_eq ?_) htiny)
  rw [abs_mul]
  ring

/-! ## Dropping the fraction -/

theorem le_truncate (h : (n : K) ≤ x) : n ≤ truncate x := by
  rw [truncate]
  split
  · exact Int.le_floor.mpr h
  · exact Int.cast_le.mp (h.trans (Int.le_ceil x))

theorem truncate_le (h : x ≤ n) : truncate x ≤ n := by
  rw [truncate]
  split
  · exact Int.cast_le.mp ((Int.floor_le x).trans h)
  · exact Int.ceil_le.mpr h

theorem truncate_eq {m : ℕ} (hle : (m : K) ≤ x) (hlt : x < m + 1) : truncate x = m := by
  rw [truncate, if_pos ((Nat.cast_nonneg m).trans hle)]
  exact Int.floor_eq_iff.mpr ⟨by exact_mod_cast hle, by exact_mod_cast hlt⟩

/-! ## Rounding by adding a half -/

/-- The doubles that `int(x + 0.5)` leaves at their integer part: not the last one below
    1/2, which is rounded up to 1, and not the odd integers whose last bit is 1. -/
structure RoundsDown (p : K) : Prop where
  fract_lt : Int.fract p < 1 / 2
  ne_last : p ≠ 1 / 2 - 1 / 2 ^ 54
  even : 2 ^ 52 ≤ p → p < 2 ^ 53 → Even ⌊p⌋

/-- A double as a multiple of its last bit. -/
theorem IsDouble.eq_mul (h : IsDouble x) (hx : x ≠ 0) : ∃ k : ℤ, x = k * 2 ^ exponent x := by
  rcases h.multiple_or_lt hx with hk | ⟨hlt, hle⟩
  · exact hk
  · exact absurd hlt (not_lt.mpr hle)

section AddHalf

variable {p : K} (hp : IsDouble p)
include hp

theorem floor_add_half_low (h0 : 0 ≤ p) (hhalf : p < 1 / 2) :
    ⌊rounded (p + 1 / 2)⌋ = 0 ↔ p ≠ 1 / 2 - 1 / 2 ^ 54 := by
  have hnonneg : 0 ≤ rounded (p + 1 / 2) := isDouble_zero.le_rounded (by linarith)
  rw [Int.floor_eq_zero_iff, Set.mem_Ico, and_iff_right hnonneg]
  rcases le_or_gt p (1 / 2 - 1 / 2 ^ 53) with hle | hgt
  · have hlast : IsDouble (1 - 1 / 2 ^ 53 : K) :=
      ⟨2 ^ 53 - 1, -53, by decide, by decide, by norm_num⟩
    have hround := hlast.rounded_le (x := p + 1 / 2) (by linarith)
    refine iff_of_true (hround.trans_lt (by norm_num)) fun heq => ?_
    rw [heq] at hle
    norm_num at hle
  · -- only one double is left
    have hexp : exponent p = -54 := by
      refine exponent_eq (by decide) ?_ ?_
      · rw [abs_of_nonneg h0]
        norm_num at hgt ⊢
        linarith
      · rw [abs_of_nonneg h0]
        norm_num at hhalf ⊢
        linarith
    obtain ⟨k, hk⟩ := hp.eq_mul (by linarith)
    have hlast : k = 2 ^ 53 - 1 := by
      rw [hexp] at hk
      norm_num at hk hgt
      have hlo : ((2 ^ 53 - 2 : ℤ) : K) < k := by
        push_cast
        linarith
      have hhi : (k : K) < (2 ^ 53 : ℤ) := by
        push_cast
        linarith
      have := Int.cast_lt.mp hlo
      have := Int.cast_lt.mp hhi
      omega
    have hp' : p = 1 / 2 - 1 / 2 ^ 54 := by
      rw [hk, hexp, hlast]
      norm_num
    have hexp' : exponent (p + 1 / 2) = -53 := by
      rw [hp']
      exact exponent_eq (by decide) (by norm_num) (by norm_num)
    have hdiv : (p + 1 / 2) / 2 ^ (-53 : ℤ) = ((2 ^ 53 : ℤ) : K) - 1 / 2 := by
      rw [hp']
      norm_num
    have hone : rounded (p + 1 / 2) = 1 := by
      rw [rounded, hexp', hdiv, nearest_sub_half, if_neg (by decide)]
      norm_num
    rw [hone]
    exact iff_of_false (lt_irrefl 1) (not_not.mpr hp')

/-- Between 1 and 2^52 a half is a multiple of the last bit. -/
theorem isDouble_add_half (h1 : 1 ≤ p) (h52 : p < 2 ^ 52) (hfract : Int.fract p < 1 / 2) :
    IsDouble (p + 1 / 2) := by
  have hpos : 0 < p := by linarith
  obtain ⟨j, hj⟩ : ∃ j : ℕ, Int.log 2 |p| = j := by
    refine Int.eq_ofNat_of_zero_le
      ((Int.zpow_le_iff_le_log one_lt_two (abs_pos.mpr hpos.ne')).mp ?_)
    rwa [zpow_zero, abs_of_pos hpos]
  have hj52 : (j : ℤ) < 52 := by
    rw [← hj]
    refine (Int.lt_zpow_iff_log_lt one_lt_two (abs_pos.mpr hpos.ne')).mp ?_
    rw [abs_of_pos hpos]
    exact_mod_cast h52
  have hexp : exponent p = j - 52 := by
    rw [exponent, hj]
    omega
  obtain ⟨k, hk⟩ := hp.eq_mul hpos.ne'
  -- the next power of two is an integer, and `p + 1 / 2` is below the next integer
  have hnext : p + 1 / 2 < 2 ^ 53 * 2 ^ exponent p := by
    have hlt := abs_lt_bits p
    have hint : (2 : K) ^ 53 * 2 ^ exponent p = (2 ^ (j + 1) : ℤ) := by
      rw [← zpow_natCast_add, hexp, show ((53 : ℕ) : ℤ) + (j - 52) = (j + 1 : ℕ) by omega,
        zpow_natCast]
      push_cast
      rfl
    rw [abs_of_pos hpos, hint] at hlt
    have hfloor : ((⌊p⌋ + 1 : ℤ) : K) ≤ (2 ^ (j + 1) : ℤ) := Int.cast_le.mpr (Int.floor_lt.mpr hlt)
    rw [hint]
    rw [Int.cast_add, Int.cast_one] at hfloor
    rw [Int.fract] at hfract
    linarith
  have hhalf : (1 / 2 : K) = (2 ^ (51 - j) : ℤ) * 2 ^ exponent p := by
    rw [Int.cast_pow, Int.cast_ofNat, ← zpow_natCast_add, hexp,
      show ((51 - j : ℕ) : ℤ) + (j - 52) = -1 by omega]
    norm_num
  refine ⟨k + 2 ^ (51 - j), exponent p, ?_, le_exponent p, ?_⟩
  · have heq : p + 1 / 2 = ((k + 2 ^ (51 - j) : ℤ) : K) * 2 ^ exponent p := by
      rw [Int.cast_add, add_mul, ← hk, ← hhalf]
    rw [heq] at hnext
    have hlt := lt_of_mul_lt_mul_right hnext (two_zpow_pos _).le
    have hk0 : (0 : K) < k := pos_of_mul_pos_left (hk ▸ hpos) (two_zpow_pos _).le
    have hk0' : 0 < k := by exact_mod_cast hk0
    rw [abs_of_nonneg (by positivity)]
    exact le_of_lt (by exact_mod_cast hlt)
  · rw [Int.cast_add, add_mul, ← hk, ← hhalf]

/-- From 2^52 on doubles are integers, and from 2^53 on a half is at most a quarter of the
    last bit. -/
theorem floor_add_half_high (h52 : 2 ^ 52 ≤ p) :
    Int.fract p = 0 ∧ (⌊rounded (p + 1 / 2)⌋ = ⌊p⌋ ↔ (p < 2 ^ 53 → Even ⌊p⌋)) := by
  have hpos : 0 < p := lt_of_lt_of_le (by norm_num) h52
  have hpos' : 0 < p + 1 / 2 := by linarith
  obtain ⟨k, hk⟩ := hp.eq_mul hpos.ne'
  obtain ⟨m, hm⟩ : ∃ m : ℕ, exponent p = m := by
    refine Int.eq_ofNat_of_zero_le (le_max_of_le_left (Int.sub_nonneg_of_le ?_))
    refine (Int.zpow_le_iff_le_log one_lt_two (abs_pos.mpr hpos.ne')).mp ?_
    rw [abs_of_pos hpos]
    exact_mod_cast h52
  have hint : p = (k * 2 ^ m : ℤ) := by
    rw [hm, zpow_natCast] at hk
    exact_mod_cast hk
  -- a half more does not reach the next multiple of the last bit
  have hexp : exponent (p + 1 / 2) = m := by
    have hlo := first_bit_le hpos.ne' (by omega)
    have hhi := abs_lt_bits p
    rw [abs_of_pos hpos, hm] at hlo hhi
    refine exponent_eq (by omega) ?_ ?_
    · rw [abs_of_pos hpos']
      linarith
    · rw [abs_of_pos hpos']
      rw [zpow_natCast] at hhi ⊢
      have hlt : k * 2 ^ m + 1 ≤ 2 ^ 53 * 2 ^ m := by
        rw [hint] at hhi
        exact_mod_cast hhi
      have hle : p + 1 ≤ 2 ^ 53 * 2 ^ m := by
        rw [hint]
        exact_mod_cast hlt
      linarith
  refine ⟨by rw [hint, Int.fract_intCast], ?_⟩
  rcases Nat.eq_zero_or_pos m with rfl | hm1
  · rw [pow_zero, mul_one] at hint
    have hsum : p + 1 / 2 = ((k + 1 : ℤ) : K) - 1 / 2 := by
      rw [hint]
      push_cast
      ring
    have hlt : p < 2 ^ 53 := by
      have := abs_lt_bits p
      rwa [abs_of_pos hpos, hm, Nat.cast_zero, zpow_zero, mul_one] at this
    rw [rounded, hexp, Nat.cast_zero, zpow_zero, div_one, mul_one, Int.floor_intCast, hsum,
      nearest_sub_half, imp_iff_right hlt, hint, Int.floor_intCast]
    split
    · next hodd => exact iff_of_true (by omega) (by grind)
    · next hodd => exact iff_of_false (by omega) (by grind)
  · have hquarter : (2 : K) ≤ 2 ^ m := by simpa using pow_le_pow_right₀ (one_le_two (α := K)) hm1
    have hnear : nearest ((p + 1 / 2) / 2 ^ exponent (p + 1 / 2)) = k := by
      refine nearest_eq ?_
      rw [hexp, hk, hm, zpow_natCast, add_div, mul_div_cancel_right₀ _ (by positivity),
        sub_add_cancel_left, abs_neg, abs_of_pos (by positivity), div_lt_iff₀ (by positivity)]
      linarith
    have hge : ¬ p < 2 ^ 53 := by
      have := first_bit_le hpos.ne' (by omega)
      rw [abs_of_pos hpos, hm, zpow_natCast] at this
      linarith
    rw [rounded, hnear, hexp, ← hm, ← hk]
    exact iff_of_true rfl fun hlt => absurd hlt hge

/-- **WHAT ADDING A HALF LEAVES**: the integer part is kept by exactly these doubles. -/
theorem floor_rounded_add_half_eq_iff (h0 : 0 ≤ p) :
    ⌊rounded (p + 1 / 2)⌋ = ⌊p⌋ ↔ RoundsDown p := by
  rcases lt_or_ge p (1 / 2) with hlow | hhalf
  · have hfloor : ⌊p⌋ = 0 := Int.floor_eq_zero_iff.mpr ⟨h0, by linarith⟩
    have hfract : Int.fract p = p := by rw [Int.fract, hfloor, Int.cast_zero, sub_zero]
    rw [hfloor, floor_add_half_low hp h0 hlow]
    refine ⟨fun hne => ⟨by rwa [hfract], hne, fun hge => ?_⟩, fun h => h.ne_last⟩
    linarith
  have hlast : p ≠ 1 / 2 - 1 / 2 ^ 54 := fun heq => by
    rw [heq] at hhalf
    norm_num at hhalf
  have hfract := Int.self_sub_floor p
  rcases lt_or_ge p (2 ^ 52) with hmid | hhigh
  · have hodd : 2 ^ 52 ≤ p → p < 2 ^ 53 → Even ⌊p⌋ := fun hge => absurd hmid (not_lt.mpr hge)
    rcases lt_or_ge (Int.fract p) (1 / 2) with hlt | hge
    · have h1 : 1 ≤ p := by
        have hone : 0 < ⌊p⌋ := by
          rw [← Int.cast_pos (R := K)]
          linarith
        exact le_trans (by exact_mod_cast hone) (Int.floor_le p)
      refine iff_of_true ?_ ⟨hlt, hlast, hodd⟩
      rw [(isDouble_add_half hp h1 hmid hlt).rounded_eq, Int.floor_eq_iff]
      exact ⟨by linarith [Int.floor_le p], by linarith⟩
    · refine iff_of_false (fun heq => ?_) fun h => absurd h.fract_lt (not_lt.mpr hge)
      have hnext : IsDouble ((⌊p⌋ + 1 : ℤ) : K) := by
        refine isDouble_int ?_
        have hlt : ⌊p⌋ < 2 ^ 52 := Int.floor_lt.mpr (by rwa [← cast_first_bit])
        have hge := Int.floor_nonneg.mpr h0
        rw [abs_of_nonneg (by omega)]
        omega
      have hround := hnext.le_rounded (x := p + 1 / 2) (by push_cast; linarith)
      have := Int.le_floor.mpr hround
      omega
  · obtain ⟨hint, hiff⟩ := floor_add_half_high hp hhigh
    rw [hiff]
    exact ⟨fun h => ⟨by rw [hint]; norm_num, hlast, fun _ => h⟩, fun h => h.even hhigh⟩

end AddHalf

end Double
