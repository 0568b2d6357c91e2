import Pick.WordProofs

/-! # A counter that only counts up

A value that is counted up and down may be kept negated while it goes down:
then every unit adds one, and a change of direction negates the counter.

If the value is biased so that it stays below half the range of a word, then
the top bit of the counter says if it is negated. -/

namespace TurnCounter

section Group

variable {G : Type} [AddCommGroup G]

/-- A value that goes up as it is, one that goes down negated. -/
def signed (up : Bool) (v : G) : G := if up then v else -v

/-- A unit adds the same in both directions. -/
theorem signed_add (up : Bool) (v n : G) : signed up v + n = signed up (v + signed up n) := by
  cases up with
  | true => rfl
  | false =>
    show -v + n = -(v + -n)
    abel

/-- A change of direction negates the counter. -/
theorem signed_turn (up turn : Bool) (v : G) :
    signed (!turn) (signed up v) = signed (up ^^ turn) v := by
  cases turn with
  | false => rw [Bool.xor_false]; rfl
  | true =>
    cases up with
    | true => rfl
    | false => exact neg_neg v

end Group

/-- Units up less units down. -/
def net (ups : List Bool) : ℤ := (ups.map fun up => signed up 1).sum

theorem net_append (ups ups' : List Bool) : net (ups ++ ups') = net ups + net ups' := by
  rw [net, List.map_append, List.sum_append]
  rfl

theorem net_singleton (up : Bool) : net [up] = signed up 1 := by
  rw [net, List.map_singleton, List.sum_singleton]

/-! ## In a word -/

/-- The value that a counter stands for. -/
def magnitude (p : UInt32) : UInt32 := if p &&& 0x80000000 ≠ 0 then -p else p

theorem magnitude_signed {w : UInt32} (hpos : 0 < w.toNat)
    (hlt : w.toNat < 2 ^ 31) (up : Bool) : magnitude (signed up w) = w := by
  cases up with
  | true =>
    rw [magnitude, if_neg]
    · rfl
    · rw [Words.and_topBit_ne_zero]
      exact Nat.not_le.mpr hlt
  | false =>
    rw [magnitude, if_pos]
    · exact UInt32.neg_neg
    · rw [Words.and_topBit_ne_zero]
      show 2 ^ 31 ≤ (-w).toNat
      rw [UInt32.toNat_neg]
      show 2 ^ 31 ≤ (2 ^ 32 - w.toNat) % 2 ^ 32
      omega

/-- The word of a value with a bias of a quarter of the range. -/
def biased (x : ℤ) : UInt32 := UInt32.ofInt (2 ^ 30 + x)

theorem toNat_biased {x : ℤ} (hx : |x| < 2 ^ 30) : ((biased x).toNat : ℤ) = 2 ^ 30 + x := by
  have hword := Words.natCast_toNat_ofInt (2 ^ 30 + x)
  rw [abs_lt] at hx
  rw [biased, hword]
  omega

theorem biased_add (x n : ℤ) : biased x + UInt32.ofInt n = biased (x + n) := by
  rw [biased, biased, ← UInt32.ofInt_add, add_assoc]

theorem magnitude_biased {x : ℤ} (hx : |x| < 2 ^ 30) (up : Bool) :
    magnitude (signed up (biased x)) = biased x := by
  have hword := toNat_biased hx
  rw [abs_lt] at hx
  exact magnitude_signed (by omega) (by omega) up

end TurnCounter
