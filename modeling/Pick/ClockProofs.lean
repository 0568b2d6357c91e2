import Pick.StatsProofs
import Pick.TrdispatchProofs

/-! # Clocks of 64 bits (`src/basecmd.c`, `klippy/clocksync.py`)

The micro-controller counts the wraps of its clock when it sends statistics, and the
host extends the clocks it is sent by their distance from the last one. -/

namespace Clock

open List Stats Trdispatch

/-! ## Model -/

/-- `command_get_uptime`: the words `high` and `clock`. -/
def commandGetUptime (cur : UInt32) (s : State) : UInt32 × UInt32 :=
  (s.sendTimeHigh + (if cur < s.sendTime then 1 else 0), cur)

/-- `last_clock` of `connect`. -/
def connect (uptime : UInt32 × UInt32) : ℤ := (uptime.1.toNat <<< 32 ||| uptime.2.toNat : ℕ)

/-- `last_clock` of `_handle_clock`. -/
def handleClock (lastClock : ℤ) (clock : UInt32) : ℤ :=
  lastClock + (clock.toNat - lastClock) % 2 ^ 32

/-- The uptime at `t`, after calls of `stats_update` at the true times given. -/
def uptime (interval : UInt32) (calls : List (UInt32 × ℕ)) (t : ℕ) : UInt32 × UInt32 :=
  commandGetUptime (.ofNat t) (run interval (calls.map (Prod.map id .ofNat))).1

/-- `last_clock` after the responses to `get_clock`. -/
def lastClock (uptime : UInt32 × UInt32) (clocks : List ℕ) : ℤ :=
  (clocks.map UInt32.ofNat).foldl handleClock (connect uptime)

/-- In order and less than a wrap apart, by some margin. -/
def Apart (margin a b : ℕ) : Prop := a ≤ b ∧ b + margin < a + 2 ^ 32

instance (margin : ℕ) : DecidableRel (Apart margin) :=
  fun _ _ => inferInstanceAs (Decidable (_ ∧ _))

/-! ## The micro-controller -/

variable {interval : UInt32} {last sent t c : ℕ} {s : State}

/-- A report less than a wrap ago tells the high word. -/
theorem high_word (hle : sent ≤ t) (hlt : t < sent + 2 ^ 32) :
    (if UInt32.ofNat t < UInt32.ofNat sent then UInt32.ofNat (sent / 2 ^ 32) + 1
      else UInt32.ofNat (sent / 2 ^ 32)) = UInt32.ofNat (t / 2 ^ 32) := by
  apply UInt32.toNat_inj.mp
  rw [apply_ite UInt32.toNat]
  simp only [UInt32.lt_iff_toNat_lt, UInt32.toNat_add, UInt32.toNat_ofNat', UInt32.toNat_one]
  split <;> omega

/-- The words hold a time from which the last call is at most an interval away. -/
def Holds (interval : UInt32) (last : ℕ) (s : State) : Prop :=
  ∃ sent ≤ last, last ≤ sent + interval.toNat ∧
    s.sendTime = .ofNat sent ∧ s.sendTimeHigh = .ofNat (sent / 2 ^ 32)

theorem Holds.update (h : Holds interval last s) (ht : Apart interval.toNat last t)
    (start : UInt32) : Holds interval t (statsUpdate interval start (.ofNat t) s).1 := by
  obtain ⟨sent, hle, hnear, htime, hhigh⟩ := h
  obtain ⟨hlast, hlt⟩ := ht
  have hdiff := Words.toNat_ofNat_sub (hle.trans hlast) (show t < sent + 2 ^ 32 by omega)
  rw [statsUpdate, timerHasElapsed, htime]
  split
  · next hearly =>
    rw [Bool.not_eq_true', decide_eq_false_iff_not, ge_iff_le, UInt32.le_iff_toNat_le, hdiff]
      at hearly
    exact ⟨sent, hle.trans hlast, by omega, rfl, hhigh⟩
  · refine ⟨t, le_rfl, Nat.le_add_right .., rfl, ?_⟩
    rw [hhigh]
    exact high_word (hle.trans hlast) (by omega)

theorem Holds.getUptime (h : Holds interval last s) (ht : Apart interval.toNat last t) :
    commandGetUptime (.ofNat t) s = (.ofNat (t / 2 ^ 32), .ofNat t) := by
  obtain ⟨sent, hle, hnear, htime, hhigh⟩ := h
  obtain ⟨hlast, hlt⟩ := ht
  rw [commandGetUptime, htime, hhigh, add_ite, UInt32.add_zero,
    high_word (hle.trans hlast) (by omega)]

theorem Holds.calls {calls : List (UInt32 × ℕ)} {r : State × List Call}
    (h : Holds interval last r.1)
    (ht : (last :: calls.map Prod.snd ++ [t]).IsChain (Apart interval.toNat)) :
    commandGetUptime (.ofNat t) ((calls.map (Prod.map id .ofNat)).foldl (step interval) r).1 =
      (.ofNat (t / 2 ^ 32), .ofNat t) := by
  induction calls generalizing r last with
  | nil => exact h.getUptime (isChain_pair.mp ht)
  | cons call calls ih =>
    obtain ⟨hcall, ht⟩ := isChain_cons_cons.mp ht
    exact ih (h.update hcall call.1) ht

/-! ## The host -/

variable {K : Type}

end Clock
