import Mathlib

/-! # Sequences with a constant second difference

A *ramp* starts at a clock, goes on by an interval, and changes the
interval by a constant after each element.  Ramps one after the other,
each with a mark on its elements, make a *train*.  They are defined over
any type with addition, so that a train of integers and the train of
machine words that stands for it are the same construction. -/

namespace Ramp

open List

variable {α β : Type}

section Definitions

variable [Add α]

/-- The `n` elements after `clock`. -/
def ramp (add : α) : Nat → α → α → List α
  | 0, _, _ => []
  | n + 1, clock, interval => (clock + interval) :: ramp add n (clock + interval) (interval + add)

/-- The last of them, or `clock` itself. -/
def stop (add : α) : Nat → α → α → α
  | 0, clock, _ => clock
  | n + 1, clock, interval => stop add n (clock + interval) (interval + add)

/-- The interval after `n` changes. -/
def after (add : α) : Nat → α → α
  | 0, interval => interval
  | n + 1, interval => after add n (interval + add)

/-- A ramp to be run from wherever the one before stopped. -/
structure Segment (α β : Type) where
  interval : α
  count : Nat
  add : α
  mark : β

/-- The marked elements of segments one after the other. -/
def train : α → List (Segment α β) → List (α × β)
  | _, [] => []
  | clock, g :: gs =>
    (ramp g.add g.count clock g.interval).map (fun c => (c, g.mark))
      ++ train (stop g.add g.count clock g.interval) gs

/-- Where the last segment stops. -/
def finish : α → List (Segment α β) → α
  | clock, [] => clock
  | clock, g :: gs => finish (stop g.add g.count clock g.interval) gs

end Definitions

/-- The last element of two lists, or `a`. -/
theorem getLastD_append (l l' : List α) (a : α) :
    (l ++ l').getLastD a = l'.getLastD (l.getLastD a) := by
  induction l generalizing a with
  | nil => rfl
  | cons b l ih => rw [cons_append, getLastD_cons, ih, getLastD_cons]

/-! ## Ramps -/

section Add

variable [Add α]

theorem getLastD_ramp (add : α) (n : Nat) (clock interval : α) :
    (ramp add n clock interval).getLastD clock = stop add n clock interval := by
  induction n generalizing clock interval with
  | zero => rfl
  | succ n ih => rw [ramp, getLastD_cons, ih, stop]

variable [Add β] {f : α → β}

/-- A map that keeps sums maps ramps to ramps. -/
theorem map_ramp (hf : ∀ a b, f (a + b) = f a + f b) (add : α) (n : Nat) (clock interval : α) :
    (ramp add n clock interval).map f = ramp (f add) n (f clock) (f interval) := by
  induction n generalizing clock interval with
  | zero => rfl
  | succ n ih => rw [ramp, map_cons, ih, hf, hf, ramp]

theorem map_stop (hf : ∀ a b, f (a + b) = f a + f b) (add : α) (n : Nat) (clock interval : α) :
    f (stop add n clock interval) = stop (f add) n (f clock) (f interval) := by
  induction n generalizing clock interval with
  | zero => rfl
  | succ n ih => rw [stop, ih, hf, hf, stop]

end Add

/-! ## Trains -/

section Train

variable [Add α] {gs hs : List (Segment α β)}

theorem train_append (clock : α) :
    train clock (gs ++ hs) = train clock gs ++ train (finish clock gs) hs := by
  induction gs generalizing clock with
  | nil => rfl
  | cons g gs ih =>
    rw [cons_append, train, ih, train, append_assoc]
    rfl

theorem finish_append (clock : α) : finish clock (gs ++ hs) = finish (finish clock gs) hs := by
  induction gs generalizing clock with
  | nil => rfl
  | cons g gs ih =>
    rw [cons_append, finish, ih]
    rfl

/-- A segment is run one element at a time. -/
theorem train_succ (clock interval add : α) (n : Nat) (mark : β) :
    train clock (⟨interval, n + 1, add, mark⟩ :: gs)
      = (clock + interval, mark) ::
        train (clock + interval) (⟨interval + add, n, add, mark⟩ :: gs) :=
  rfl

/-- And dropped when nothing of it is left. -/
theorem train_zero (clock interval add : α) (mark : β) :
    train clock (⟨interval, 0, add, mark⟩ :: gs) = train clock gs :=
  rfl

end Train

/-! ## Sums -/

theorem stop_eq [AddCommMonoid α] (add : α) (n : Nat) (clock interval : α) :
    stop add n clock interval = clock + n • interval + n.choose 2 • add := by
  induction n generalizing clock interval with
  | zero => rw [stop, zero_nsmul, Nat.choose_zero_succ, zero_nsmul, add_zero, add_zero]
  | succ n ih =>
    have hchoose : (n + 1).choose 2 = n + n.choose 2 := by
      rw [Nat.choose_succ_succ, Nat.choose_one_right]
    rw [stop, ih, hchoose, nsmul_add, add_nsmul interval n 1, add_nsmul add n, one_nsmul]
    abel

theorem after_eq [AddCommMonoid α] (add : α) (n : Nat) (interval : α) :
    after add n interval = interval + n • add := by
  induction n generalizing interval with
  | zero => rw [after, zero_nsmul, add_zero]
  | succ n ih =>
    rw [after, ih, add_nsmul, one_nsmul]
    abel

/-- A ramp of integers whose intervals are not negative and that is not even
    gets at least as far as the triangle of its length. -/
theorem choose_le_stop {add interval : ℤ} {n : Nat} (clock : ℤ)
    (ha : add ≠ 0) (hfirst : 0 ≤ interval) (hlast : 0 ≤ after add n interval) :
    ((n + 1).choose 2 : ℤ) ≤ stop add (n + 1) clock interval - clock := by
  rw [after_eq, nsmul_eq_mul] at hlast
  rw [stop_eq, nsmul_eq_mul, nsmul_eq_mul]
  have htwice : ((n + 1).choose 2 : ℤ) * 2 = (n + 1) * n := by
    have hdiv := Nat.choose_two_right (n + 1)
    have heven : (n + 1) * n % 2 = 0 := by
      rw [Nat.mul_comm]
      exact Nat.even_iff.mp (Nat.even_mul_succ_self n)
    rw [Nat.add_sub_cancel] at hdiv
    have hnat : (n + 1).choose 2 * 2 = (n + 1) * n := by omega
    exact_mod_cast hnat
  have hn : (0 : ℤ) ≤ n := Int.natCast_nonneg n
  push_cast
  rcases lt_or_gt_of_ne ha with hneg | hpos
  · -- falling: the first interval is at least what the last one has lost
    have h₁ : (n : ℤ) * 1 ≤ n * -add := mul_le_mul_of_nonneg_left (by omega) hn
    nlinarith
  · nlinarith

end Ramp
