import Mathlib

/-! # Signed variable length quantities

A variable length quantity writes an integer as 7-bit groups, most
significant group first, with bit 7 set on every byte but the last.  The
reader takes the sign from bits 5 and 6 of the first byte: both set means
the first group counts from `-128`.

So `k + 1` bytes name exactly the integers of `[-32·128^k, 96·128^k)`, and reading
the `k + 1` byte form of any other integer gives the representative of its residue
class modulo `128^(k+1)` in that interval. -/

namespace Vlq

/-- A byte that is not the last one: bit 7 set. -/
def contByte (g : Int) : UInt8 := UInt8.ofNat ((g % 128).toNat + 128)

/-- The last byte: bit 7 clear. -/
def lastByte (g : Int) : UInt8 := UInt8.ofNat (g % 128).toNat

/-- The `k + 1` byte form of `v`. -/
def vlqBytes : Nat → Int → List UInt8
  | 0, v => [lastByte v]
  | k + 1, v => contByte (v / 128 ^ (k + 1)) :: vlqBytes k v

/-- The reader's loop: `c` is the byte just read, `v` the value so far. -/
def decodeLoop : Int → UInt8 → List UInt8 → Option (Int × List UInt8)
  | v, c, [] => if c.toNat < 128 then some (v, []) else none
  | v, c, d :: rest =>
    if c.toNat < 128 then some (v, d :: rest)
    else decodeLoop (v * 128 + (d.toNat % 128 : Nat)) d rest

/-- The value of the first group, with its sign. -/
def firstGroup (c : UInt8) : Int :=
  if 96 ≤ c.toNat % 128 then (c.toNat % 128 : Nat) - 128 else (c.toNat % 128 : Nat)

/-- Read one quantity: its value and the bytes after it. -/
def decode : List UInt8 → Option (Int × List UInt8)
  | [] => none
  | c :: rest => decodeLoop (firstGroup c) c rest

theorem contByte_toNat (g : Int) : (contByte g).toNat = (g % 128).toNat + 128 := by
  have hlt : (g % 128).toNat < 128 := by omega
  rw [contByte, UInt8.toNat_ofNat']
  omega

theorem lastByte_toNat (g : Int) : (lastByte g).toNat = (g % 128).toNat := by
  have hlt : (g % 128).toNat < 128 := by omega
  rw [lastByte, UInt8.toNat_ofNat']
  omega

@[simp] theorem vlqBytes_length (k : Nat) (v : Int) : (vlqBytes k v).length = k + 1 := by
  induction k with
  | zero => rfl
  | succ k ih => rw [vlqBytes, List.length_cons, ih]

/-- The `k + 1` byte form only depends on the residue modulo `128^(k+1)`. -/
theorem vlqBytes_add_mul (k : Nat) (v j : Int) :
    vlqBytes k (v + 128 ^ (k + 1) * j) = vlqBytes k v := by
  induction k generalizing j with
  | zero =>
    have hmod : (v + 128 ^ (0 + 1) * j) % 128 = v % 128 := by omega
    rw [vlqBytes, vlqBytes, lastByte, lastByte, hmod]
  | succ k ih =>
    have hp : (128 : Int) ^ (k + 1) ≠ 0 := by positivity
    have hv : v + 128 ^ (k + 1 + 1) * j = v + 128 ^ (k + 1) * (128 * j) := by ring
    have hmod : (v / 128 ^ (k + 1) + 128 * j) % 128 = v / 128 ^ (k + 1) % 128 := by omega
    rw [vlqBytes, vlqBytes, hv, ih, Int.add_mul_ediv_left _ _ hp, contByte, contByte, hmod]

/-- Splitting off the most significant group of the low part of `v`. -/
theorem emod_pow_succ (v : Int) (k : Nat) :
    v % 128 ^ (k + 1) = (v / 128 ^ k % 128) * 128 ^ k + v % 128 ^ k := by
  have hp : (0 : Int) ≤ 128 ^ k := by positivity
  have hq : v / (128 ^ k * 128) = v / 128 ^ k / 128 := (Int.ediv_ediv_of_nonneg hp).symm
  rw [pow_succ, Int.emod_def v (128 ^ k * 128), hq,
    Int.emod_def (v / 128 ^ k), Int.emod_def v (128 ^ k)]
  ring

/-- The loop shifts the value so far up by the groups that follow and adds the low part of `v`. -/
theorem decodeLoop_vlqBytes (k : Nat) (v acc : Int) (c : UInt8)
    (rest : List UInt8) (hc : 128 ≤ c.toNat) :
    decodeLoop acc c (vlqBytes k v ++ rest)
      = some (acc * 128 ^ (k + 1) + v % 128 ^ (k + 1), rest) := by
  induction k generalizing acc c with
  | zero =>
    have hb := lastByte_toNat v
    have hlt : (lastByte v).toNat < 128 := by omega
    rw [vlqBytes, List.singleton_append, decodeLoop, if_neg (Nat.not_lt.mpr hc)]
    have hval : acc * 128 + ((lastByte v).toNat % 128 : Nat)
        = acc * 128 ^ (0 + 1) + v % 128 ^ (0 + 1) := by
      rw [hb]
      omega
    rw [hval]
    cases rest with
    | nil | cons d rest => rw [decodeLoop, if_pos hlt]
  | succ k ih =>
    have hb := contByte_toNat (v / 128 ^ (k + 1))
    rw [vlqBytes, List.cons_append, decodeLoop, if_neg (Nat.not_lt.mpr hc), ih _ _ (by omega)]
    have hg : (((contByte (v / 128 ^ (k + 1))).toNat % 128 : Nat) : Int)
        = v / 128 ^ (k + 1) % 128 := by
      rw [hb]
      omega
    have hval : (acc * 128 + v / 128 ^ (k + 1) % 128) * 128 ^ (k + 1) + v % 128 ^ (k + 1)
        = acc * 128 ^ (k + 1 + 1) + v % 128 ^ (k + 1 + 1) := by
      rw [emod_pow_succ v (k + 1)]
      ring
    rw [hg, hval]

/-- The sign rule on a group `q`, read from a byte that holds `q % 128`. -/
def signGroup (q : Int) : Int := if 96 ≤ q % 128 then q % 128 - 128 else q % 128

/-- **READING BACK** a `k + 1` byte form: the sign rule for the top group, and the low part of
    the value. -/
theorem decode_vlqBytes (k : Nat) (v : Int) (rest : List UInt8) :
    decode (vlqBytes k v ++ rest)
      = some (signGroup (v / 128 ^ k) * 128 ^ k + v % 128 ^ k, rest) := by
  cases k with
  | zero =>
    have hb := lastByte_toNat v
    have hlt : (lastByte v).toNat < 128 := by omega
    have hval : firstGroup (lastByte v) = signGroup (v / 128 ^ 0) * 128 ^ 0 + v % 128 ^ 0 := by
      simp only [firstGroup, signGroup, hb, pow_zero, Int.ediv_one, Int.emod_one]
      split <;> split <;> omega
    rw [vlqBytes, List.singleton_append, decode, hval]
    cases rest with
    | nil | cons d rest => rw [decodeLoop, if_pos hlt]
  | succ k =>
    have hb := contByte_toNat (v / 128 ^ (k + 1))
    have hg : firstGroup (contByte (v / 128 ^ (k + 1))) = signGroup (v / 128 ^ (k + 1)) := by
      simp only [firstGroup, signGroup, hb]
      split <;> split <;> omega
    rw [vlqBytes, List.cons_append, decode, decodeLoop_vlqBytes k v _ _ rest (by omega), hg]

/-- A value in the interval of the `k + 1` byte form is read back as sent. -/
theorem decode_vlqBytes_of_mem (k : Nat) (v : Int) (rest : List UInt8)
    (hlo : -32 * 128 ^ k ≤ v) (hhi : v < 96 * 128 ^ k) :
    decode (vlqBytes k v ++ rest) = some (v, rest) := by
  have hp : (0 : Int) < 128 ^ k := by positivity
  have hq1 : -32 ≤ v / 128 ^ k := Int.le_ediv_of_mul_le hp hlo
  have hq2 : v / 128 ^ k < 96 := Int.ediv_lt_of_lt_mul hp hhi
  have hs : signGroup (v / 128 ^ k) = v / 128 ^ k := by
    unfold signGroup
    split <;> omega
  rw [decode_vlqBytes, hs, Int.ediv_mul_add_emod]

/-- Whatever was sent, the value read is congruent to it modulo the width of the form. -/
theorem signGroup_emod (k : Nat) (v : Int) :
    (signGroup (v / 128 ^ k) * 128 ^ k + v % 128 ^ k) % 128 ^ (k + 1) = v % 128 ^ (k + 1) := by
  have hs : ∃ j : Int, signGroup (v / 128 ^ k) = v / 128 ^ k + 128 * j := by
    unfold signGroup
    split
    · exact ⟨-(v / 128 ^ k / 128) - 1, by omega⟩
    · exact ⟨-(v / 128 ^ k / 128), by omega⟩
  obtain ⟨j, hj⟩ := hs
  have hsum : signGroup (v / 128 ^ k) * 128 ^ k + v % 128 ^ k = v + 128 ^ (k + 1) * j := by
    have hv := Int.ediv_mul_add_emod v (128 ^ k)
    calc signGroup (v / 128 ^ k) * 128 ^ k + v % 128 ^ k
        = (v / 128 ^ k * 128 ^ k + v % 128 ^ k) + 128 ^ (k + 1) * j := by rw [hj]; ring
      _ = v + 128 ^ (k + 1) * j := by rw [hv]
  rw [hsum, Int.add_mul_emod_self_left]

end Vlq
