import Pick.NumberProofs

/-! # Quadratic sequences through windows

The sequence `add * n * (n - 1) / 2 + interval * n` goes on by `interval` first
and changes its interval by `add` after each element.  It *fits* a row of windows
when each element lies in its own.  When the windows are disjoint and in order,
no interval is negative up to the last element that fits, and this bounds both
parts of the sum by the sum. -/

namespace Quadratic

/-- Element `n` of the sequence. -/
def value (add interval : ℤ) (n : ℕ) : ℤ := add * n.choose 2 + interval * n

variable {add interval : ℤ} {n : ℕ}

@[simp] theorem value_one (add interval : ℤ) : value add interval 1 = interval := by
  rw [value, Nat.choose_eq_zero_of_lt Nat.one_lt_two, Nat.cast_zero, mul_zero, zero_add,
    Nat.cast_one, mul_one]

theorem choose_two_succ (n : ℕ) : (n + 1).choose 2 = n.choose 2 + n := by
  rw [Nat.choose_succ_succ', Nat.choose_one_right, add_comm]

theorem value_succ (add interval : ℤ) (n : ℕ) :
    value add interval (n + 1) = value add interval n + (interval + add * n) := by
  rw [value, value, choose_two_succ]
  push_cast
  ring

theorem choose_two_mul_two (n : ℕ) : ((n + 1).choose 2 : ℤ) * 2 = (n + 1) * n := by
  induction n with
  | zero => rfl
  | succ n ih =>
    rw [choose_two_succ]
    push_cast at ih ⊢
    linarith

/-- A larger interval leads further. -/
theorem value_mono {interval' : ℤ} (h : interval ≤ interval') (n : ℕ) :
    value add interval n ≤ value add interval' n := by
  have hmul : interval * n ≤ interval' * n := mul_le_mul_of_nonneg_right h (Int.natCast_nonneg n)
  rw [value, value]
  linarith

/-! ## Windows -/

/-- Windows with the numbers `1` to `count`, disjoint and in order. -/
structure Windows (lo hi : ℕ → ℤ) (count : ℕ) (bound : ℤ) : Prop where
  first : 0 ≤ lo 1
  ordered : ∀ k, 1 ≤ k → k < count → hi k < lo (k + 1)
  nonempty : ∀ k, 1 ≤ k → k ≤ count → lo k ≤ hi k
  bounded : ∀ k, 1 ≤ k → k ≤ count → hi k < bound

/-- The elements `1` to `n` are in their windows. -/
def Fits (lo hi : ℕ → ℤ) (add interval : ℤ) (n : ℕ) : Prop :=
  ∀ k, 1 ≤ k → k ≤ n → lo k ≤ value add interval k ∧ value add interval k ≤ hi k

variable {lo hi : ℕ → ℤ} {count : ℕ} {bound : ℤ}

theorem Windows.hi_lt_lo (hw : Windows lo hi count bound) {k m : ℕ} (hk : 1 ≤ k)
    (hkm : k < m) (hm : m ≤ count) : hi k < lo m := by
  induction m with
  | zero => exact absurd hkm (Nat.not_lt_zero k)
  | succ m ih =>
    rcases Nat.lt_or_eq_of_le (Nat.le_of_lt_succ hkm) with hlt | rfl
    · have hprev := ih hlt (Nat.le_of_succ_le hm)
      have hself := hw.nonempty m (by omega) (Nat.le_of_succ_le hm)
      have hnext := hw.ordered m (by omega) hm
      omega
    · exact hw.ordered k hk hm

theorem Windows.lo_nonneg (hw : Windows lo hi count bound) {k : ℕ} (hk : 1 ≤ k)
    (hcount : k ≤ count) : 0 ≤ lo k := by
  rcases Nat.lt_or_eq_of_le hk with hlt | rfl
  · have hself := hw.nonempty 1 (le_refl _) (by omega)
    have hlater := hw.hi_lt_lo (le_refl _) hlt hcount
    have hfirst := hw.first
    omega
  · exact hw.first

namespace Fits

theorem take {m : ℕ} (h : Fits lo hi add interval n) (hm : m ≤ n) : Fits lo hi add interval m :=
  fun k hk hkm => h k hk (hkm.trans hm)

/-- One more element. -/
theorem snoc (h : Fits lo hi add interval n) (hlo : lo (n + 1) ≤ value add interval (n + 1))
    (hhi : value add interval (n + 1) ≤ hi (n + 1)) : Fits lo hi add interval (n + 1) := by
  intro k hk hkn
  rcases Nat.lt_or_eq_of_le hkn with hlt | rfl
  · exact h k hk (Nat.le_of_lt_succ hlt)
  · exact ⟨hlo, hhi⟩

/-- An interval between two that fit. -/
theorem between {least most : ℤ} (hleast : Fits lo hi add least n)
    (hmost : Fits lo hi add most n) (hle : least ≤ interval) (hge : interval ≤ most) :
    Fits lo hi add interval n :=
  fun k hk hkn => ⟨(hleast k hk hkn).1.trans (value_mono hle k),
    (value_mono hge k).trans (hmost k hk hkn).2⟩

section Bounds

variable (hw : Windows lo hi count bound) (h : Fits lo hi add interval (n + 1))
  (hn : n + 1 ≤ count)

include hw h hn

/-- The sequence has not left the windows. -/
theorem value_nonneg : 0 ≤ value add interval (n + 1) :=
  (hw.lo_nonneg (Nat.succ_pos n) hn).trans (h (n + 1) (Nat.succ_pos n) (le_refl _)).1

theorem value_lt : value add interval (n + 1) < bound :=
  lt_of_le_of_lt (h (n + 1) (Nat.succ_pos n) (le_refl _)).2 (hw.bounded (n + 1) (Nat.succ_pos n) hn)

omit hn in
theorem interval_nonneg : 0 ≤ interval := by
  have hfirst := (h 1 (le_refl _) (Nat.succ_pos n)).1
  rw [value_one] at hfirst
  exact hw.first.trans hfirst

/-- The last interval is not negative. -/
theorem last_nonneg : 0 ≤ interval + add * n := by
  cases n with
  | zero =>
    rw [Nat.cast_zero, mul_zero, add_zero]
    exact interval_nonneg hw h
  | succ m =>
    have hprev := (h (m + 1) (by omega) (by omega)).2
    have hlast := (h (m + 1 + 1) (by omega) (by omega)).1
    have horder := hw.ordered (m + 1) (by omega) (by omega)
    have hsucc := value_succ add interval (m + 1)
    omega

omit hn in
/-- **NEITHER PART** of the sum exceeds it: rising, because both are positive;
    falling, because the first interval is at least what the last one has lost. -/
theorem add_mul_le : add * (n + 1).choose 2 ≤ value add interval (n + 1) := by
  have hfirst := interval_nonneg hw h
  have hpart : 0 ≤ interval * ((n + 1 : ℕ) : ℤ) := mul_nonneg hfirst (Int.natCast_nonneg _)
  rw [value]
  linarith

theorem neg_add_mul_le : -(add * (n + 1).choose 2) ≤ value add interval (n + 1) := by
  have hlast := last_nonneg hw h hn
  have hpart : 0 ≤ (interval + add * n) * ((n + 1 : ℕ) : ℤ) :=
    mul_nonneg hlast (Int.natCast_nonneg _)
  have htwice : add * ((n + 1).choose 2 * 2) = add * ((n + 1) * n) := by rw [choose_two_mul_two]
  rw [value]
  push_cast at hpart ⊢
  linarith

theorem interval_mul_le : interval * ((n + 1 : ℕ) : ℤ) ≤ 2 * value add interval (n + 1) := by
  have hneg := neg_add_mul_le hw h hn
  have hvalue : value add interval (n + 1) =
      add * (n + 1).choose 2 + interval * ((n + 1 : ℕ) : ℤ) := rfl
  linarith

/-- The last interval is no more than the whole way. -/
theorem last_le : interval + add * n ≤ value add interval (n + 1) := by
  cases n with
  | zero => rw [Nat.cast_zero, mul_zero, add_zero, zero_add, value_one]
  | succ m =>
    have hprev := value_nonneg hw (h.take (Nat.le_succ _)) (Nat.le_of_succ_le hn)
    have hsucc := value_succ add interval (m + 1)
    rw [hsucc]
    linarith

end Bounds

/-- The sequence that fits more windows is ahead. -/
theorem lt_value {add' interval' : ℤ} {m : ℕ} (hw : Windows lo hi count bound)
    (h : Fits lo hi add interval n) (h' : Fits lo hi add' interval' m) (hn : 1 ≤ n)
    (hnm : n < m) (hm : m ≤ count) : value add interval n < value add' interval' m := by
  have hbelow := (h n hn (le_refl _)).2
  have habove := (h' m (by omega) (le_refl _)).1
  have hbetween := hw.hi_lt_lo hn hnm hm
  omega

end Fits

end Quadratic
