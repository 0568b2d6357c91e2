import Pick.WordProofs

/-! # Clocks that wrap

`timer_is_before` compares two 32-bit clock times by the sign of their
difference (`src/generic/timer_irq.c`).  That is no order on all clock
times, but it is one on any stretch of less than `2 ^ 31` ticks. -/

namespace Timer

open Words

/-- `timer_is_before`. -/
def timerIsBefore (time1 time2 : UInt32) : Bool := decide ((time1 - time2).toInt32 < 0)

theorem timerIsBefore_iff (a b : UInt32) : timerIsBefore a b = true ↔ 2 ^ 31 ≤ (a - b).toNat := by
  have hint := toInt_toInt32 (a - b)
  have hlt := (a - b).toNat_lt
  rw [timerIsBefore, decide_eq_true_iff, Int32.lt_iff_toInt_lt, hint, Int32.toInt_zero]
  split <;> omega

theorem timerIsBefore_self (t : UInt32) : timerIsBefore t t = false := by
  rw [timerIsBefore, UInt32.sub_self]
  rfl

/-- Each time is before exactly one of two that are half the clock apart. -/
theorem timerIsBefore_add_half (t p : UInt32) :
    timerIsBefore t (p + 0x80000000) = !timerIsBefore t p := by
  rw [Bool.eq_not, Ne, Bool.eq_iff_iff, timerIsBefore_iff, timerIsBefore_iff]
  have h₁ := natCast_toNat_sub t (p + 0x80000000)
  have h₂ := natCast_toNat_add p 0x80000000
  have h₃ := natCast_toNat_sub t p
  have h₄ : (0x80000000 : UInt32).toNat = 2 ^ 31 := rfl
  rw [h₄] at h₂
  omega

/-! ## Stretches of time -/

/-- How long after `base` a time is. -/
def offset (base t : UInt32) : Nat := (t - base).toNat

variable {base a b : UInt32}

/-- In such a stretch the comparison is that of the times. -/
theorem timerIsBefore_iff_offset (ha : offset base a < 2 ^ 31) (hb : offset base b < 2 ^ 31) :
    timerIsBefore a b = true ↔ offset base a < offset base b := by
  rw [timerIsBefore_iff]
  have h₁ := natCast_toNat_sub a b
  have h₂ := natCast_toNat_sub a base
  have h₃ := natCast_toNat_sub b base
  rw [offset] at ha hb ⊢
  rw [offset]
  omega

/-! ## Times around a given one -/

/-- How long after `base` a time is, or, with a minus, how long before it. -/
def elapsed (base t : UInt32) : Int := (t - base).toInt32.toInt

theorem elapsed_eq (base t : UInt32) :
    elapsed base t = if (t - base).toNat < 2 ^ 31 then ((t - base).toNat : Int)
      else (t - base).toNat - 2 ^ 32 :=
  toInt_toInt32 _

variable {n : UInt32}

theorem elapsed_add (h : elapsed base a + n.toNat < 2 ^ 31) :
    elapsed base (a + n) = elapsed base a + n.toNat := by
  have h₁ := natCast_toNat_sub a base
  have h₂ := natCast_toNat_sub (a + n) base
  have h₃ := natCast_toNat_add a n
  have ha := elapsed_eq base a
  have hs := elapsed_eq base (a + n)
  split at ha <;> split at hs <;> omega

theorem elapsed_self_add (h : n.toNat < 2 ^ 31) :
    elapsed base (base + n) = n.toNat := by
  have hzero : elapsed base base = 0 := by
    rw [elapsed, UInt32.sub_self]
    rfl
  rw [elapsed_add (by omega), hzero, Int.zero_add]

/-- Of two times less than half the clock apart, one is before the other by the
    comparison when it is before it in time, whatever they are told from. -/
theorem timerIsBefore_add_iff (hlo : -2 ^ 31 ≤ elapsed base a + n.toNat - elapsed base b)
    (hhi : elapsed base a + n.toNat - elapsed base b < 2 ^ 31) :
    timerIsBefore (a + n) b = true ↔ elapsed base a + n.toNat < elapsed base b := by
  have h₁ := natCast_toNat_sub a base
  have h₂ := natCast_toNat_sub b base
  have h₃ := natCast_toNat_add a n
  have h₄ := natCast_toNat_sub (a + n) b
  have ha := elapsed_eq base a
  have hb := elapsed_eq base b
  rw [timerIsBefore_iff]
  split at ha <;> split at hb <;> omega

theorem timerIsBefore_iff_elapsed (hlo : -2 ^ 31 ≤ elapsed base a - elapsed base b)
    (hhi : elapsed base a - elapsed base b < 2 ^ 31) :
    timerIsBefore a b = true ↔ elapsed base a < elapsed base b := by
  have hzero : (0 : UInt32).toNat = 0 := rfl
  have h := @timerIsBefore_add_iff base a b 0
  rw [UInt32.add_zero, hzero, Int.natCast_zero, Int.add_zero] at h
  exact h hlo hhi

/-- A time that `base + n` is not before comes after it by no more than that,
    and before it by less than the rest of half the clock. -/
theorem elapsed_of_not_before (hn : n.toNat < 2 ^ 31)
    (h : timerIsBefore (base + n) b = false) :
    elapsed base b ≤ n.toNat ∧ (n.toNat : Int) - 2 ^ 31 < elapsed base b := by
  have h₁ := natCast_toNat_sub b base
  have h₂ := natCast_toNat_add base n
  have h₃ := natCast_toNat_sub (base + n) b
  have hlt := mt (timerIsBefore_iff (base + n) b).mpr (Bool.eq_false_iff.mp h)
  have hb := elapsed_eq base b
  split at hb <;> omega

end Timer
