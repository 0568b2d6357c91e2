import Mathlib

/-! # Machine words as numbers

Masks, shifts and sign reinterpretation on fixed-width words, stated as
arithmetic on their values, so that the proofs about a codec or a clock
are linear arithmetic. -/

namespace Words

/-- A property of bytes is checked on the 256 of them. -/
theorem forall_uint8 {P : UInt8 → Prop}
    (h : ∀ i : Fin 256, P (.ofNat i.val)) (c : UInt8) : P c := by
  have hc := h ⟨c.toNat, c.toNat_lt⟩
  rwa [UInt8.ofNat_toNat] at hc

theorem and_0x80_eq_zero (c : UInt8) : c &&& 0x80 = 0 ↔ c.toNat < 128 := by
  revert c
  exact forall_uint8 (by decide +kernel)

theorem and_0x60_eq (c : UInt8) : c &&& 0x60 = 0x60 ↔ 96 ≤ c.toNat % 128 := by
  revert c
  exact forall_uint8 (by decide +kernel)

theorem and_0x7f_toNat (c : UInt8) : (c &&& 0x7f).toNat = c.toNat % 128 := by
  rw [UInt8.toNat_and]
  exact Nat.and_two_pow_sub_one_eq_mod c.toNat 7

/-- Setting bit 7 above a 7-bit group. -/
theorem or_0x80 {g : Nat} (h : g < 128) : g ||| 128 = g + 128 := by
  have hg := Nat.two_pow_add_eq_or_of_lt (i := 7) h 1
  rw [Nat.or_comm]
  show 2 ^ 7 * 1 ||| g = g + 128
  rw [← hg]
  omega

/-- A group of seven bits of a word, with bit 7 set. -/
theorem contGroup_toNat (v : UInt32) (n : Nat) :
    (((v >>> UInt32.ofNat n) &&& 0x7f) ||| 0x80).toUInt8.toNat
      = v.toNat / 2 ^ (n % 32) % 128 + 128 := by
  have hlt : v.toNat / 2 ^ (n % 32) % 128 < 128 := Nat.mod_lt _ (by decide)
  have hand : ((v >>> UInt32.ofNat n) &&& 0x7f).toNat = v.toNat / 2 ^ (n % 32) % 128 := by
    rw [UInt32.toNat_and, UInt32.toNat_shiftRight, UInt32.toNat_ofNat', Nat.shiftRight_eq_div_pow,
      show n % 2 ^ 32 % 32 = n % 32 from Nat.mod_mod_of_dvd n (by decide)]
    exact Nat.and_two_pow_sub_one_eq_mod _ 7
  rw [UInt32.toNat_toUInt8, UInt32.toNat_or, hand]
  rw [show (128 : UInt32).toNat = 128 from rfl, or_0x80 hlt]
  omega

/-- The last group of seven bits of a word. -/
theorem lastGroup_toNat (v : UInt32) : (v &&& 0x7f).toUInt8.toNat = v.toNat % 128 := by
  have hand : (v &&& 0x7f).toNat = v.toNat % 128 := by
    rw [UInt32.toNat_and]
    exact Nat.and_two_pow_sub_one_eq_mod _ 7
  rw [UInt32.toNat_toUInt8, hand]
  omega

/-- Two's complement reading of a 32-bit word. -/
theorem toInt_toInt32 (v : UInt32) :
    v.toInt32.toInt = if v.toNat < 2 ^ 31 then (v.toNat : Int) else v.toNat - 2 ^ 32 := by
  have hv := v.toNat_lt
  show v.toBitVec.toInt = _
  rw [BitVec.toInt_eq_toNat_cond]
  show (if 2 * v.toNat < 2 ^ 32 then (v.toNat : Int) else _) = _
  split <;> split <;> first | omega | rfl

/-- A 64-bit word as a signed number. -/
theorem toInt_toInt64 (v : UInt64) :
    v.toInt64.toInt = if v.toNat < 2 ^ 63 then (v.toNat : ℤ) else v.toNat - 2 ^ 64 := by
  have hv := v.toNat_lt
  show v.toBitVec.toInt = _
  rw [BitVec.toInt_eq_toNat_cond]
  show (if 2 * v.toNat < 2 ^ 64 then (v.toNat : ℤ) else _) = _
  split <;> split <;> first | omega | rfl

theorem toInt32_emod (v : UInt32) : v.toInt32.toInt % 2 ^ 32 = v.toNat := by
  have hv := v.toNat_lt
  rw [toInt_toInt32]
  split <;> omega

/-- Appending seven bits to a word is multiplication by 128 and addition. -/
theorem shl7_or (v : UInt32) (d : UInt8) :
    (v <<< 7) ||| (d &&& 0x7f).toUInt32 = v * 128 + UInt32.ofNat (d.toNat % 128) := by
  have hd : (d &&& 0x7f).toUInt32.toNat = d.toNat % 128 := by
    rw [UInt8.toNat_toUInt32, and_0x7f_toNat]
  have hlt : d.toNat % 128 < 2 ^ 7 := Nat.mod_lt _ (by decide)
  have hv := v.toNat_lt
  apply UInt32.toNat_inj.mp
  have hshl : (v <<< 7).toNat = 2 ^ 7 * (v.toNat % 2 ^ 25) := by
    rw [UInt32.toNat_shiftLeft, show (7 : UInt32).toNat % 32 = 7 from rfl, Nat.shiftLeft_eq]
    omega
  rw [UInt32.toNat_or, hd, hshl, ← Nat.two_pow_add_eq_or_of_lt hlt,
    UInt32.toNat_add, UInt32.toNat_mul, UInt32.toNat_ofNat',
    show (128 : UInt32).toNat = 128 from rfl]
  omega

/-! ## Words as integers -/

theorem natCast_toNat_ofInt (x : ℤ) : ((UInt32.ofInt x).toNat : ℤ) = x % 2 ^ 32 := by
  rw [UInt32.ofInt, UInt32.toNat_ofNat']
  omega

theorem natCast_toNat_ofInt_of_lt {x : ℤ} (hge : 0 ≤ x) (hlt : x < 2 ^ 32) :
    ((UInt32.ofInt x).toNat : ℤ) = x := by
  rw [natCast_toNat_ofInt]
  omega

theorem natCast_toNat_add (a b : UInt32) :
    ((a + b).toNat : ℤ) = ((a.toNat : ℤ) + b.toNat) % 2 ^ 32 := by
  rw [UInt32.toNat_add]
  omega

theorem natCast_toNat_sub (a b : UInt32) :
    ((a - b).toNat : ℤ) = ((a.toNat : ℤ) - b.toNat) % 2 ^ 32 := by
  have ha := a.toNat_lt
  have hb := b.toNat_lt
  rw [UInt32.toNat_sub]
  omega

theorem ofInt_of_emod {a : UInt32} {x : ℤ}
    (h : (a.toNat : ℤ) = x % 2 ^ 32) : UInt32.ofInt x = a := by
  apply UInt32.toNat_inj.mp
  have hx := natCast_toNat_ofInt x
  omega

theorem ofInt_natCast (n : Nat) : UInt32.ofInt n = UInt32.ofNat n := by
  refine ofInt_of_emod ?_
  rw [UInt32.toNat_ofNat']
  omega

/-- The word of a clock less the word of one not long before. -/
theorem toNat_ofNat_sub {a b : Nat} (hba : b ≤ a) (hlt : a < b + 2 ^ 32) :
    (.ofNat a - UInt32.ofNat b).toNat = a - b := by
  have hsub := natCast_toNat_sub (.ofNat a) (.ofNat b)
  rw [UInt32.toNat_ofNat', UInt32.toNat_ofNat'] at hsub
  omega

/-- A signed word read as unsigned. -/
theorem toUInt32_int32 (x : Int32) : x.toUInt32 = UInt32.ofInt x.toInt := by
  refine (ofInt_of_emod ?_).symm
  have hback : x.toUInt32.toInt32 = x := rfl
  rw [← toInt32_emod, hback]

/-- Sign extension to a word. -/
theorem toUInt32_toInt32_int16 (a : Int16) : a.toInt32.toUInt32 = UInt32.ofInt a.toInt := by
  rw [toUInt32_int32, Int16.toInt_toInt32]

/-- Sign extension is undone by cutting the word off. -/
theorem toInt16_of_toInt32 (a : Int16) : a.toInt32.toUInt32.toUInt16.toInt16 = a := by
  have hcut : a.toInt32.toUInt32.toUInt16.toInt16 = a.toInt32.toInt16 := by
    apply Int16.toBitVec_inj.mp
    exact (BitVec.signExtend_eq_setWidth_of_le a.toInt32.toBitVec (show 16 ≤ 32 by decide)).symm
  rw [hcut, Int16.toInt16_toInt32]

/-- Writing the low half of a word whose high half is zero. -/
theorem or_lowHalf {c : UInt32} (h : c.toNat < 2 ^ 16) (d : UInt16) :
    (c &&& 0xffff0000) ||| d.toUInt32 = d.toUInt32 := by
  have hmask : c &&& 0xffff0000 = 0 := by
    apply UInt32.toNat_inj.mp
    rw [UInt32.toNat_and]
    show c.toNat &&& (0xffff <<< 16) = 0
    apply Nat.eq_of_testBit_eq
    intro i
    rw [Nat.testBit_and, Nat.testBit_shiftLeft, Nat.zero_testBit]
    by_cases hi : 16 ≤ i
    · have hlt := h.trans_le (Nat.pow_le_pow_right (by omega) hi)
      rw [Nat.testBit_lt_two_pow hlt, Bool.false_and]
    · rw [decide_eq_false hi, Bool.false_and, Bool.and_false]
  rw [hmask, UInt32.zero_or]

/-- Counting down. -/
theorem toNat_sub_one {c : UInt32} (h : c ≠ 0) : (c - 1).toNat + 1 = c.toNat := by
  have hpos : c.toNat ≠ 0 := fun h0 => h (UInt32.toNat_inj.mp h0)
  have hle : (1 : UInt32) ≤ c := by
    rw [UInt32.le_iff_toNat_le, UInt32.toNat_one]
    omega
  rw [UInt32.toNat_sub_of_le _ _ hle, UInt32.toNat_one]
  omega

theorem toNat_sub_one_uint8 {c : UInt8} (h : c ≠ 0) : (c - 1).toNat + 1 = c.toNat := by
  have hlt := c.toNat_lt
  have hpos : c.toNat ≠ 0 := fun h0 => h (UInt8.toNat_inj.mp h0)
  rw [UInt8.toNat_sub, show (1 : UInt8).toNat = 1 from rfl]
  omega

/-- The lowest bit. -/
theorem and_one_ne_zero (c : UInt32) : c &&& 1 ≠ 0 ↔ c.toNat % 2 = 1 := by
  rw [ne_eq, ← UInt32.toNat_inj, UInt32.toNat_and, UInt32.toNat_one,
    UInt32.toNat_zero, Nat.and_one_is_mod]
  omega

/-- The highest bit of a number of `k + 1` bits. -/
theorem and_two_pow_of_lt {n k : Nat} (h : n < 2 ^ (k + 1)) :
    n &&& 2 ^ k = if 2 ^ k ≤ n then 2 ^ k else 0 := by
  rw [Nat.and_two_pow]
  split
  · next hle =>
    rw [Nat.testBit_of_two_pow_le_and_two_pow_add_one_gt hle h, Bool.toNat_true, one_mul]
  · next hlt => rw [Nat.testBit_lt_two_pow (Nat.not_le.mp hlt), Bool.toNat_false, zero_mul]

theorem and_topBit_ne_zero (c : UInt32) : c &&& 0x80000000 ≠ 0 ↔ 2 ^ 31 ≤ c.toNat := by
  rw [ne_eq, ← UInt32.toNat_inj, UInt32.toNat_and, UInt32.toNat_zero]
  show ¬ c.toNat &&& 2 ^ 31 = 0 ↔ _
  rw [and_two_pow_of_lt c.toNat_lt]
  split
  · next h => exact iff_of_true (by decide) h
  · next h => exact iff_of_false (not_not_intro rfl) h

/-! ## Signed words

`Int32.ofInt` keeps sums and products whatever their size; comparisons and
quotients need values that the word can hold. -/

/-- The integers that a signed word of 32 bits holds. -/
def Signed (x : ℤ) : Prop := -2 ^ 31 ≤ x ∧ x < 2 ^ 31

theorem Signed.toInt_ofInt {x : ℤ} (h : Signed x) : (Int32.ofInt x).toInt = x :=
  Int32.toInt_ofInt_of_le h.1 h.2

section Signed

variable {x y : ℤ} (hx : Signed x) (hy : Signed y)
include hx hy

theorem Signed.ofInt_lt_iff : Int32.ofInt x < Int32.ofInt y ↔ x < y := by
  rw [Int32.lt_iff_toInt_lt, hx.toInt_ofInt, hy.toInt_ofInt]

theorem Signed.ofInt_le_iff : Int32.ofInt x ≤ Int32.ofInt y ↔ x ≤ y := by
  rw [Int32.le_iff_toInt_le, hx.toInt_ofInt, hy.toInt_ofInt]

theorem Signed.ofInt_inj : Int32.ofInt x = Int32.ofInt y ↔ x = y := by
  rw [← Int32.toInt_inj, hx.toInt_ofInt, hy.toInt_ofInt]

/-- A choice by a comparison of words. -/
theorem Signed.ofInt_ite (a b : ℤ) :
    (if Int32.ofInt x < Int32.ofInt y then Int32.ofInt a else Int32.ofInt b) =
      Int32.ofInt (if x < y then a else b) := by
  rw [apply_ite Int32.ofInt]
  exact if_congr (hx.ofInt_lt_iff hy) rfl rfl

theorem Signed.ofInt_tdiv : Int32.ofInt (x.tdiv y) = Int32.ofInt x / Int32.ofInt y :=
  Int32.ofInt_tdiv hx.1 (Int.le_of_lt_add_one hx.2) hy.1 (Int.le_of_lt_add_one hy.2)

end Signed

theorem signed_zero : Signed 0 := ⟨by decide, by decide⟩

theorem Signed.zero_le_iff {x : ℤ} (h : Signed x) : 0 ≤ Int32.ofInt x ↔ 0 ≤ x :=
  signed_zero.ofInt_le_iff h

theorem toUInt32_ofInt (x : ℤ) : (Int32.ofInt x).toUInt32 = UInt32.ofInt x := by
  rw [toUInt32_int32, Int32.toInt_ofInt]
  refine ofInt_of_emod ?_
  rw [natCast_toNat_ofInt]
  exact (Int.bmod_emod).symm

theorem eq_ofInt_of_toNat {x : Int32} {v : ℤ} (h : (x.toUInt32.toNat : ℤ) = v)
    (hlt : v < 2 ^ 31) : x = Int32.ofInt v := by
  have hback : x = x.toUInt32.toInt32 := rfl
  have htoInt := toInt_toInt32 x.toUInt32
  rw [if_pos (by omega), ← hback, h] at htoInt
  rw [← htoInt, Int32.ofInt_toInt]

end Words
