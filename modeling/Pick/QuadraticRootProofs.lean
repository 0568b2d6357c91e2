import Pick.QuadraticProofs
import Pick.RampProofs

/-! # Counting the elements of a quadratic sequence

The sequence `value add interval` is `a * n ^ 2 + b * n` with `a = add / 2` and
`b = interval - add / 2`.  Up to the last element whose interval is not negative, the
number of elements that are not above `t` is the root of `a * x ^ 2 + b * x = t`,
rounded down: for a rising interval the larger root and for a falling one the
smaller, so in both cases `(sqrt (b * b + 4 * a * t) - b) / (2 * a)`.

The last element may lie half a step beyond the vertex of the parabola. -/

namespace Quadratic

open List Ramp

variable {add interval t : ℤ} {k m n : ℕ}

/-! ## Order -/

/-- None of the intervals of `n + 1` elements is negative. -/
structure Rises (add interval : ℤ) (n : ℕ) : Prop where
  first : 0 ≤ interval
  last : 0 ≤ interval + add * n

theorem Rises.interval_nonneg (h : Rises add interval n) (hk : k ≤ n) : 0 ≤ interval + add * k := by
  have hk' : (k : ℤ) ≤ n := Int.ofNat_le.mpr hk
  have hk₀ : (0 : ℤ) ≤ k := Int.natCast_nonneg k
  rcases le_total 0 add with hadd | hadd
  · have hmul := mul_nonneg hadd hk₀
    linarith [h.first]
  · have hmul := mul_le_mul_of_nonpos_left hk' hadd
    linarith [h.last]

theorem Rises.value_le_succ (h : Rises add interval n) (hk : k ≤ n) :
    value add interval k ≤ value add interval (k + 1) := by
  rw [value_succ]
  linarith [h.interval_nonneg hk]

theorem Rises.value_le (h : Rises add interval n) (hkm : k ≤ m) (hm : m ≤ n + 1) :
    value add interval k ≤ value add interval m := by
  induction m with
  | zero => rw [Nat.le_zero.mp hkm]
  | succ m ih =>
    rcases Nat.lt_or_eq_of_le hkm with hlt | heq
    · exact (ih (Nat.le_of_lt_succ hlt) (by omega)).trans (h.value_le_succ (by omega))
    · rw [heq]

/-! ## Counting -/

/-- A predicate that holds below `m` only. -/
theorem countP_range_below {p : ℕ → Bool} (hmn : m ≤ n) (hbelow : ∀ k < m, p k = true)
    (habove : ∀ k, m ≤ k → k < n → p k = false) : (List.range n).countP p = m := by
  obtain ⟨r, rfl⟩ := Nat.exists_eq_add_of_le hmn
  have hfirst : (List.range m).countP p = m := by
    rw [countP_eq_length.mpr fun k hk => hbelow k (mem_range.mp hk), length_range]
  have hrest : ((List.range r).map (m + ·)).countP p = 0 := by
    refine countP_eq_zero.mpr fun k hk => ?_
    obtain ⟨i, hi, rfl⟩ := mem_map.mp hk
    have hi' := mem_range.mp hi
    rw [habove (m + i) (by omega) (by omega)]
    exact Bool.false_ne_true
  rw [range_add, countP_append, hfirst, hrest, Nat.add_zero]

theorem value_succ' (add interval : ℤ) (n : ℕ) :
    value add interval (n + 1) = interval + value add (interval + add) n := by
  rw [value, value, choose_two_succ]
  push_cast
  ring

theorem ramp_eq_map (add : ℤ) (n : ℕ) (clock interval : ℤ) :
    ramp add n clock interval = (List.range n).map fun k => clock + value add interval (k + 1) := by
  induction n generalizing clock interval with
  | zero => rfl
  | succ n ih =>
    rw [ramp, ih, range_succ_eq_map, map_cons, map_map, value_one]
    refine congrArg _ (map_congr_left fun k _ => ?_)
    show clock + interval + value add (interval + add) (k + 1) =
      clock + value add interval (k + 1 + 1)
    rw [value_succ' add interval (k + 1)]
    ring

/-- Where the elements up to `t` end. -/
structure EndsAt (add interval t : ℤ) (m : ℕ) : Prop where
  pos : 1 ≤ m
  le : value add interval m ≤ t
  lt : t < value add interval (m + 1)

theorem exists_endsAt (hlo : interval ≤ t) (hhi : t < value add interval (n + 1)) :
    ∃ m, m ≤ n ∧ EndsAt add interval t m := by
  have hex : ∃ k, t < value add interval (k + 1) := ⟨n, hhi⟩
  have hpos : Nat.find hex ≠ 0 := by
    intro hzero
    have hfind := Nat.find_spec hex
    rw [hzero, value_one] at hfind
    omega
  obtain ⟨k, hk⟩ := Nat.exists_eq_succ_of_ne_zero hpos
  have hmin := Nat.find_min hex (m := k) (by omega)
  refine ⟨Nat.find hex, Nat.find_min' hex hhi, by omega, ?_, Nat.find_spec hex⟩
  rw [hk]
  exact not_lt.mp hmin

/-- **THE COUNT** of the elements that are not above a bound. -/
theorem Rises.countP_ramp (h : Rises add interval n) (hmn : m ≤ n)
    (hends : EndsAt add interval t m) (clock : ℤ) :
    (ramp add (n + 1) clock interval).countP (fun c => decide (c ≤ clock + t)) = m := by
  rw [ramp_eq_map, countP_map]
  refine countP_range_below (by omega) (fun k hk => ?_) fun k hmk hk => ?_
  · have hle := h.value_le (k := k + 1) (m := m) hk (by omega)
    exact decide_eq_true (by linarith [hends.le])
  · have hle := h.value_le (k := m + 1) (m := k + 1) (by omega) (by omega)
    exact decide_eq_false (by linarith [hends.lt])

/-! ## The root -/

variable {K : Type} [Field K] [LinearOrder K] [IsStrictOrderedRing K]

/-- A square root that is exact. -/
structure ExactRoot (K : Type) [Field K] [LinearOrder K] where
  sqrt : K → K
  nonneg : ∀ x, 0 ≤ x → 0 ≤ sqrt x
  mul_self : ∀ x, 0 ≤ x → sqrt x * sqrt x = x

namespace ExactRoot

variable (root : ExactRoot K) {x d : K}

theorem le_sqrt_iff (hx : 0 ≤ x) (hd : 0 ≤ d) : x ≤ root.sqrt d ↔ x * x ≤ d := by
  rw [mul_self_le_mul_self_iff hx (root.nonneg d hd), root.mul_self d hd]

theorem sqrt_le_iff (hx : 0 ≤ x) (hd : 0 ≤ d) : root.sqrt d ≤ x ↔ d ≤ x * x := by
  rw [mul_self_le_mul_self_iff (root.nonneg d hd) hx, root.mul_self d hd]

end ExactRoot

theorem two_mul_value (add interval : ℤ) (n : ℕ) :
    2 * value add interval n = add * (n * (n - 1)) + 2 * (interval * n) := by
  cases n with
  | zero =>
    rw [value, Nat.choose_zero_succ]
    ring
  | succ n =>
    have hchoose := choose_two_mul_two n
    rw [value]
    push_cast
    linear_combination add * hchoose

/-- The slope at an element, squared. -/
theorem slope_mul_self (add interval : ℤ) (n : ℕ) :
    ((add : K) * n + (interval - 1 / 2 * add)) * (add * n + (interval - 1 / 2 * add)) =
      (interval - 1 / 2 * add) * (interval - 1 / 2 * add) +
        2 * add * (value add interval n : ℤ) := by
  have hvalue : (2 : K) * (value add interval n : ℤ) =
      add * (n * (n - 1)) + 2 * (interval * n) := by
    exact_mod_cast congrArg (Int.cast : ℤ → K) (two_mul_value add interval n)
  linear_combination (-(add : K)) * hvalue

section Between

variable {b v v' t a : K} {m : ℕ} (hslope : 0 ≤ a * m + b)
  (hv : (a * m + b) * (a * m + b) = b * b + 2 * a * v)
  (hv' : (a * (m + 1) + b) * (a * (m + 1) + b) = b * b + 2 * a * v')
  (hle : v ≤ t) (hlt : t < v')

include hslope hv hv' hle hlt

/-- **RISING INTERVALS**: the larger root lies between the last element that is counted and
    the next. -/
theorem root_between_of_pos (root : ExactRoot K) (ha : 0 < a) :
    0 ≤ b * b + 2 * a * t ∧ (m : K) ≤ (root.sqrt (b * b + 2 * a * t) - b) / a ∧
      (root.sqrt (b * b + 2 * a * t) - b) / a < m + 1 := by
  have hmul : 2 * a * v ≤ 2 * a * t := mul_le_mul_of_nonneg_left hle (by linarith)
  have hmul' : 2 * a * t < 2 * a * v' := mul_lt_mul_of_pos_left hlt (by linarith)
  have hdisc : 0 ≤ b * b + 2 * a * t := by linarith [mul_self_nonneg (a * m + b)]
  have hslope' : 0 ≤ a * (m + 1) + b := by linarith
  refine ⟨hdisc, ?_, ?_⟩
  · rw [le_div_iff₀ ha, le_sub_iff_add_le, mul_comm, root.le_sqrt_iff hslope hdisc]
    linarith
  · have hnot : ¬ a * (m + 1) + b ≤ root.sqrt (b * b + 2 * a * t) := by
      rw [root.le_sqrt_iff hslope' hdisc]
      linarith
    rw [div_lt_iff₀ ha]
    linarith [not_le.mp hnot]

/-- **FALLING INTERVALS**: so does the smaller root; the slope at the next element may be
    negative. -/
theorem root_between_of_neg (root : ExactRoot K) (ha : a < 0) :
    0 ≤ b * b + 2 * a * t ∧ (m : K) ≤ (root.sqrt (b * b + 2 * a * t) - b) / a ∧
      (root.sqrt (b * b + 2 * a * t) - b) / a < m + 1 := by
  have hmul : 2 * a * t ≤ 2 * a * v := mul_le_mul_of_nonpos_left hle (by linarith)
  have hmul' : 2 * a * v' < 2 * a * t := mul_lt_mul_of_neg_left hlt (by linarith)
  have hdisc : 0 ≤ b * b + 2 * a * t := by linarith [mul_self_nonneg (a * (m + 1) + b)]
  refine ⟨hdisc, ?_, ?_⟩
  · have hsqrt : root.sqrt (b * b + 2 * a * t) ≤ a * m + b := by
      rw [root.sqrt_le_iff hslope hdisc]
      linarith
    rw [le_div_iff_of_neg ha]
    linarith
  · have hnot : ¬ root.sqrt (b * b + 2 * a * t) ≤ a * (m + 1) + b := by
      intro hsqrt
      have hslope' := (root.nonneg _ hdisc).trans hsqrt
      rw [root.sqrt_le_iff hslope' hdisc] at hsqrt
      linarith
    rw [div_lt_iff_of_neg ha]
    linarith [not_le.mp hnot]

end Between

/-- **THE ROOT** lies between the last element that is counted and the next. -/
theorem root_between (root : ExactRoot K) (h : Rises add interval n) (hadd : add ≠ 0)
    (hmn : m ≤ n) (hends : EndsAt add interval t m) :
    let b : K := interval - 1 / 2 * add
    0 ≤ b * b + 2 * add * t ∧ (m : K) ≤ (root.sqrt (b * b + 2 * add * t) - b) / add ∧
      (root.sqrt (b * b + 2 * add * t) - b) / add < m + 1 := by
  intro b
  have hle : ((value add interval m : ℤ) : K) ≤ t := Int.cast_le.mpr hends.le
  have hlt : (t : K) < (value add interval (m + 1) : ℤ) := Int.cast_lt.mpr hends.lt
  have hv : ((add : K) * m + b) * (add * m + b) =
      b * b + 2 * add * (value add interval m : ℤ) := slope_mul_self add interval m
  have hv' : ((add : K) * (m + 1) + b) * (add * (m + 1) + b) =
      b * b + 2 * add * (value add interval (m + 1) : ℤ) := by
    have hnext := slope_mul_self (K := K) add interval (m + 1)
    push_cast at hnext
    exact hnext
  rcases lt_or_gt_of_ne hadd with hneg | hpos
  · have hneg' : (add : K) < 0 := by exact_mod_cast hneg
    have hlast : (0 : K) ≤ interval + add * m := by exact_mod_cast h.interval_nonneg hmn
    have hslope : 0 ≤ (add : K) * m + (interval - 1 / 2 * add) := by linarith
    exact root_between_of_neg hslope hv hv' hle hlt root hneg'
  · have hpos' : (0 : K) < add := by exact_mod_cast hpos
    have hfirst : (0 : K) ≤ interval := by exact_mod_cast h.first
    have hm : (add : K) * 1 ≤ add * m :=
      mul_le_mul_of_nonneg_left (by exact_mod_cast hends.pos) hpos'.le
    have hslope : 0 ≤ (add : K) * m + (interval - 1 / 2 * add) := by linarith
    exact root_between_of_pos hslope hv hv' hle hlt root hpos'

/-- **HOW NEAR** the root can come to the next element: a tick, over the slope there. -/
theorem root_gap (root : ExactRoot K) (h : Rises add interval n) (hadd : add ≠ 0)
    (hmn : m ≤ n) (hends : EndsAt add interval t m) :
    let b : K := interval - 1 / 2 * add
    1 ≤ (m + 1 - (root.sqrt (b * b + 2 * add * t) - b) / add) *
      (root.sqrt (b * b + 2 * add * t) + |(add : K)| / 2) := by
  intro b
  obtain ⟨hdisc, hle, hlt⟩ := root_between root h hadd hmn hends
  have hsquare := root.mul_self _ hdisc
  have hne : (add : K) ≠ 0 := Int.cast_ne_zero.mpr hadd
  have hnext := slope_mul_self (K := K) add interval (m + 1)
  have hvalue : (t : K) + 1 ≤ (value add interval (m + 1) : ℤ) := by
    exact_mod_cast Int.add_one_le_iff.mpr hends.lt
  -- `y` is what is missing to the next element, and `s` the slope at the root
  set s := root.sqrt (b * b + 2 * add * t)
  obtain ⟨y, hy⟩ : ∃ y : K, y = m + 1 - (s - b) / add := ⟨_, rfl⟩
  have hs : (s : K) = add * (m + 1 - y) + b := by
    rw [hy, sub_sub_cancel, mul_div_cancel₀ _ hne]
    ring
  have hproduct : y * (s + add * y / 2) = (value add interval (m + 1) : ℤ) - t := by
    refine mul_left_cancel₀ (mul_ne_zero two_ne_zero hne) ?_
    push_cast at hnext
    rw [hs] at hsquare ⊢
    linear_combination hnext - hsquare
  have hslope : add * y / 2 ≤ |(add : K)| / 2 := by
    have hle_abs : add * y ≤ |(add : K)| * 1 :=
      (mul_le_mul_of_nonneg_right (le_abs_self _) (by linarith)).trans
        (mul_le_mul_of_nonneg_left (by linarith) (abs_nonneg _))
    linarith
  rw [← hy]
  calc (1 : K) ≤ y * (s + add * y / 2) := by linarith
    _ ≤ y * (s + |(add : K)| / 2) := mul_le_mul_of_nonneg_left (by linarith) (by linarith)

end Quadratic
