import Pick.StepcompressProofs
import Pick.WordProofs

/-! # Accepted moves

What `check_line` accepts is a ramp of integers: no interval is negative,
nothing wraps, every step is within its window of the requested clock, and
`add_move` computes the clock of the last one. -/

namespace Stepcompress

open List Words

/-! ## The queue -/

/-- The queue holds the steps `ts`, in order and not too far ahead. -/
structure Pending (sc : State) (ts : List Nat) : Prop where
  queue : sc.queue = ts.map UInt32.ofNat
  sorted : ts.IsChain (· < ·)
  ahead : ∀ t ∈ ts, sc.lastStepClock ≤ t
  near : ∀ t ∈ ts, t < sc.lastStepClock + clockDiffMax

variable {sc : State} {front rest : List Nat} {t : Nat}

variable {ts : List Nat} {ss : List ℤ}

theorem Pending.length_queue (h : Pending sc ts) : sc.queue.length = ts.length := by
  rw [h.queue, length_map]

theorem getD_queue (hq : sc.queue = ts.map UInt32.ofNat)
    {i : Nat} (hi : ts[i]? = some t) : sc.queue.getD i 0 = UInt32.ofNat t := by
  rw [hq, getD_eq_getElem?_getD, getElem?_map, hi]
  rfl

/-- The clock before a place of the queue. -/
theorem Pending.prev_le (h : Pending sc (front ++ t :: rest)) :
    sc.lastStepClock ≤ front.getLastD sc.lastStepClock ∧ front.getLastD sc.lastStepClock ≤ t := by
  rcases eq_nil_or_concat' front with rfl | ⟨init, prev, rfl⟩
  · exact ⟨le_refl _, h.ahead t (by simp)⟩
  · rw [getLastD_concat]
    refine ⟨h.ahead prev (by simp), ?_⟩
    have hchain := h.sorted
    rw [append_assoc] at hchain
    exact (isChain_cons_cons.mp (isChain_append.mp hchain).2.1).1.le

/-- The lower end of a window, in words. -/
theorem toNat_window {point prev maxError : UInt32} (h : prev.toNat ≤ point.toNat) :
    (point - (if (point - prev) / 2 > maxError then maxError
      else (point - prev) / 2)).toNat
        = point.toNat - min ((point.toNat - prev.toNat) / 2) maxError.toNat := by
  have hhalf : ((point - prev) / 2).toNat = (point.toNat - prev.toNat) / 2 := by
    rw [UInt32.toNat_div, UInt32.toNat_sub_of_le _ _ (UInt32.le_iff_toNat_le.mpr h)]
    rfl
  by_cases hgt : (point - prev) / 2 > maxError
  · have hlt := UInt32.lt_iff_toNat_lt.mp hgt
    rw [if_pos hgt, UInt32.toNat_sub_of_le _ _ (UInt32.le_iff_toNat_le.mpr (by omega))]
    omega
  · have hge := UInt32.le_iff_toNat_le.mp (UInt32.not_lt.mp hgt)
    rw [if_neg hgt, UInt32.toNat_sub_of_le _ _ (UInt32.le_iff_toNat_le.mpr (by omega))]
    omega

/-- **THE WINDOW** of a step: up to half of the way back to the step before,
    and no more than the maximal error. -/
theorem Pending.minmaxPoint (h : Pending sc (front ++ t :: rest)) :
    (minmaxPoint sc front.length).minp.toUInt32.toNat
        = t - sc.lastStepClock
          - min ((t - front.getLastD sc.lastStepClock) / 2) sc.maxError.toNat ∧
      (minmaxPoint sc front.length).maxp.toUInt32.toNat = t - sc.lastStepClock := by
  obtain ⟨hle, hle'⟩ := h.prev_le
  have hnear : t < sc.lastStepClock + clockDiffMax := h.near t (by simp)
  have hfar : clockDiffMax < 2 ^ 32 := by decide
  have hpoint : (sc.queue.getD front.length 0
      - UInt32.ofNat sc.lastStepClock).toNat = t - sc.lastStepClock := by
    rw [getD_queue h.queue (t := t) (by simp)]
    exact toNat_ofNat_sub (hle.trans hle') (by omega)
  have hprev : ((if 0 < front.length then
      sc.queue.getD (front.length - 1) 0 - UInt32.ofNat sc.lastStepClock
      else 0) : UInt32).toNat = front.getLastD sc.lastStepClock - sc.lastStepClock := by
    rcases eq_nil_or_concat' front with rfl | ⟨init, prev, rfl⟩
    · rw [if_neg (by decide), getLastD_nil, Nat.sub_self]
      rfl
    · rw [getLastD_concat] at hle hle' ⊢
      rw [if_pos (by simp), getD_queue h.queue (t := prev) (by simp)]
      exact toNat_ofNat_sub hle (by omega)
  refine ⟨?_, ?_⟩
  · rw [Stepcompress.minmaxPoint, UInt32.toUInt32_toInt32, toNat_window (by omega), hpoint, hprev]
    omega
  · rw [Stepcompress.minmaxPoint, UInt32.toUInt32_toInt32, hpoint]

/-! ## Steps that follow their requests -/

/-- Steps taken at `ss` after one at `v`, for the requests `ts`: none is late, none is early by more
    than the maximal error or than half of the time since the step before. -/
def Follows (maxError : Nat) : ℤ → List ℤ → List Nat → Prop
  | _, [], [] => True
  | v, s :: ss, t :: ts =>
    (s ≤ t ∧ (t : ℤ) ≤ s + maxError ∧ v + t ≤ 2 * s) ∧ Follows maxError s ss ts
  | _, _, _ => False

variable {maxError n : Nat} {v : ℤ}

theorem follows_append {ss' : List ℤ} {ts' : List Nat} (h : Follows maxError v ss ts)
    (h' : Follows maxError (ss.getLastD v) ss' ts') :
    Follows maxError v (ss ++ ss') (ts ++ ts') := by
  fun_induction Follows maxError v ss ts with
  | case1 => exact h'
  | case2 v s ss t ts ih =>
    rw [getLastD_cons] at h'
    exact ⟨h.1, ih h.2 h'⟩
  | case3 => exact h.elim

theorem Follows.le_last (h : Follows maxError v ss ts) : v ≤ ss.getLastD v := by
  fun_induction Follows maxError v ss ts with
  | case1 => exact le_refl _
  | case2 v s ss t ts ih =>
    obtain ⟨⟨hle, -, hhalf⟩, hrest⟩ := h
    rw [getLastD_cons]
    have hnext := ih hrest
    omega
  | case3 => exact h.elim

/-- The last step is not after the last request. -/
theorem Follows.last_le {w : Nat} (h : Follows maxError v ss ts) (hv : v ≤ w) :
    ss.getLastD v ≤ ts.getLastD w := by
  fun_induction Follows maxError v ss ts generalizing w with
  | case1 => exact hv
  | case2 v s ss t ts ih =>
    rw [getLastD_cons, getLastD_cons]
    exact ih h.2 h.1.1
  | case3 => exact h.elim

/-! ## Checking a line -/

variable {move : StepMove}

/-- A step of `check_line`, read as integers: from the step at `s`, the word
    `interval` of `I` leads to `s + I`. -/
theorem checkPoints_succ {left i : Nat} {interval p : UInt32}
    (hok : checkPoints sc move (left + 1) i interval p = .ok ()) :
    (minmaxPoint sc i).minp.toUInt32.toNat ≤ (p + interval).toNat ∧
      (p + interval).toNat ≤ (minmaxPoint sc i).maxp.toUInt32.toNat ∧ interval.toNat < 2 ^ 31 ∧
      checkPoints sc move left (i + 1) (advance interval move.add) (p + interval) = .ok () := by
  rw [checkPoints] at hok
  split at hok
  · cases hok
  · rename_i hwindow
    rw [not_or, UInt32.not_lt, gt_iff_lt, UInt32.not_lt,
      UInt32.le_iff_toNat_le, UInt32.le_iff_toNat_le] at hwindow
    split at hok
    · cases hok
    · rename_i hover
      refine ⟨hwindow.1, hwindow.2, ?_, hok⟩
      rw [ge_iff_le, UInt32.not_le, UInt32.lt_iff_toNat_lt] at hover
      exact hover

open Ramp in
/-- **ACCEPTED POINTS ARE A RAMP OF INTEGERS** that follows the queue. -/
theorem checkPoints_follows {left : Nat} :
    ∀ {front rest : List Nat} {interval p : UInt32} {s I : ℤ},
      Pending sc (front ++ rest) → left ≤ rest.length →
      sc.lastStepClock ≤ s → s ≤ front.getLastD sc.lastStepClock →
      (p.toNat : ℤ) = s - sc.lastStepClock →
      interval = UInt32.ofInt I → -2 ^ 15 ≤ I → I < 2 ^ 31 + 2 ^ 15 →
      checkPoints sc move left front.length interval p = .ok () →
      Follows sc.maxError.toNat s (ramp move.add.toInt left s I)
          (rest.take left) ∧
        ∀ n, left = n + 1 → 0 ≤ I ∧ I < 2 ^ 31 ∧ 0 ≤ after move.add.toInt n I := by
  induction left with
  | zero =>
    intro front rest interval p s I _ _ _ _ _ _ _ _ _
    exact ⟨trivial, fun n hn => absurd hn (by omega)⟩
  | succ left ih =>
    intro front rest interval p s I hpend hlen hls hsp hp hI hlo hhi hok
    cases rest with
    | nil => exact absurd hlen (by simp)
    | cons t rest =>
      obtain ⟨hmin, hmax, hint, hok'⟩ := checkPoints_succ hok
      obtain ⟨hminp, hmaxp⟩ := hpend.minmaxPoint
      obtain ⟨hle, hle'⟩ := hpend.prev_le
      have hnear : t < sc.lastStepClock + clockDiffMax := hpend.near t (by simp)
      have hfar : clockDiffMax < 2 ^ 30 := by decide
      -- a word below 2 ^ 31 is the interval itself
      have hword := natCast_toNat_ofInt I
      rw [← hI] at hword
      have hI' : (interval.toNat : ℤ) = I := by omega
      have hsum := natCast_toNat_add p interval
      have hp' : ((p + interval).toNat : ℤ) = s + I - sc.lastStepClock := by omega
      have hstep : s + I ≤ t ∧ (t : ℤ) ≤ s + I + sc.maxError.toNat ∧ s + t ≤ 2 * (s + I) := by omega
      have hassoc : front ++ t :: rest = front ++ [t] ++ rest := by
        rw [append_assoc, singleton_append]
      rw [hassoc] at hpend
      have hadd : advance interval move.add = UInt32.ofInt (I + move.add.toInt) := by
        rw [advance, hI, toUInt32_toInt32_int16, UInt32.ofInt_add]
      have ha := move.add.le_toInt
      have ha' := move.add.toInt_lt
      have hlast : (front ++ [t]).getLastD sc.lastStepClock = t := getLastD_concat
      have hplace : front.length + 1 = (front ++ [t]).length := by simp
      rw [hplace] at hok'
      obtain ⟨hfollows, hrest⟩ := ih hpend (by simpa using hlen) (by omega)
        (by rw [hlast]; exact hstep.1) hp' hadd (by omega) (by omega) hok'
      refine ⟨⟨hstep, hfollows⟩, ?_⟩
      intro n hn
      refine ⟨by omega, by omega, ?_⟩
      cases n with
      | zero =>
        show 0 ≤ I
        omega
      | succ n => exact (hrest n (by omega)).2.2

/-! ## The clock of the last step -/

theorem toInt_ofNat_pred (hn : n + 1 < 2 ^ 16) : (Int32.ofNat (n + 1) - 1).toInt = n := by
  rw [Int32.toInt_sub, Int32.toInt_ofNat_of_lt (by omega)]
  show (((n + 1 : Nat) : ℤ) - 1).bmod (2 ^ 32) = _
  rw [Int.bmod_eq_of_le] <;> omega

/-- `addfactor`, as long as it does not overflow. -/
theorem toInt_addfactor (hn : n + 1 < 2 ^ 16) (hlt : (n + 1).choose 2 < 2 ^ 30) :
    (Int32.ofNat (n + 1) * (Int32.ofNat (n + 1) - 1) / 2).toInt = (n + 1).choose 2 := by
  have htwo : (n + 1).choose 2 = (n + 1) * n / 2 := Nat.choose_two_right (n + 1)
  have hmul : (n + 1) * n < 2 ^ 31 := by omega
  have hprod : (Int32.ofNat (n + 1) * (Int32.ofNat (n + 1) - 1)).toInt = ((n + 1) * n : Nat) := by
    rw [Int32.toInt_mul, Int32.toInt_ofNat_of_lt (by omega), toInt_ofNat_pred hn,
      ← Int.natCast_mul, Int.bmod_eq_of_le] <;> omega
  rw [Int32.toInt_div, hprod, htwo]
  show ((((n + 1) * n : Nat) : ℤ).tdiv ((2 : Nat) : ℤ)).bmod (2 ^ 32) = _
  rw [← Int.ofNat_tdiv, Int.bmod_eq_of_le] <;> omega

/-- `ticks`, as long as `addfactor` does not matter or does not overflow. -/
theorem ticks_eq (hn : move.count.toNat = n + 1) (hlt : move.add = 0 ∨ (n + 1).choose 2 < 2 ^ 30) :
    move.ticks = UInt32.ofInt (move.add.toInt * (n + 1).choose 2 + move.interval.toNat * n) := by
  have hcount := move.count.toNat_lt
  have hinterval : move.interval = UInt32.ofInt move.interval.toNat := by
    rw [ofInt_natCast, UInt32.ofNat_toNat]
  have hadd : (move.add.toInt32 * (Int32.ofNat (n + 1)
      * (Int32.ofNat (n + 1) - 1) / 2)).toUInt32
        = UInt32.ofInt (move.add.toInt * (n + 1).choose 2) := by
    rw [Int32.toUInt32_mul, toUInt32_toInt32_int16, UInt32.ofInt_mul]
    rcases hlt with hzero | hlt
    · rw [hzero]
      show (0 : UInt32) * _ = 0 * _
      rw [UInt32.zero_mul, UInt32.zero_mul]
    · rw [toUInt32_int32 (_ / 2), toInt_addfactor (by omega) hlt]
  rw [StepMove.ticks, hn, hadd, toUInt32_int32 (_ - 1),
    toInt_ofNat_pred (by omega), UInt32.ofInt_add, UInt32.ofInt_mul _ (n : ℤ), ← hinterval]

theorem ticks_of_single (hone : move.count = 1) : move.ticks = 0 := by
  have hn : move.count.toNat = 0 + 1 := by
    rw [hone]
    rfl
  rw [ticks_eq hn (.inr (by decide))]
  show UInt32.ofInt (move.add.toInt * 0 + move.interval.toNat * 0) = 0
  rw [mul_zero, mul_zero]
  rfl

/-- Steps that follow the queue stay near the last step clock. -/
theorem Pending.stop_near (h : Pending sc ts)
    (hf : Follows sc.maxError.toNat sc.lastStepClock ss (ts.take n)) :
    ss.getLastD sc.lastStepClock < sc.lastStepClock + clockDiffMax := by
  refine lt_of_le_of_lt (hf.last_le (le_refl _)) ?_
  rcases eq_nil_or_concat' (ts.take n) with hnil | ⟨init, t, hcons⟩
  · rw [hnil, getLastD_nil]
    have hpos : 0 < clockDiffMax := by decide
    omega
  · have ht : t ∈ ts := by
      refine mem_of_mem_take (i := n) ?_
      rw [hcons]
      simp
    rw [hcons, getLastD_concat]
    exact_mod_cast h.near t ht

open Ramp in
/-- What `check_line` accepts is a ramp of integers that follows the queue, and none of
    its intervals is negative. -/
theorem checkLine_ramp (h : Pending sc ts)
    (hlen : move.count.toNat ≤ ts.length) (hok : checkLine sc move = .ok ()) :
    Follows sc.maxError.toNat sc.lastStepClock
        (ramp move.add.toInt move.count.toNat (sc.lastStepClock : ℤ)
          move.interval.toNat) (ts.take move.count.toNat) ∧
      ∃ n, move.count.toNat = n + 1 ∧ 0 ≤ after move.add.toInt n (move.interval.toNat : ℤ) := by
  rw [checkLine] at hok
  split at hok
  · cases hok
  · rename_i hvalid
    rw [not_or, not_or] at hvalid
    obtain ⟨hzero, -, hbig⟩ := hvalid
    have hpos : 0 < move.count.toNat := by
      refine Nat.pos_of_ne_zero fun hc => hzero (UInt16.toNat_inj.mp hc)
    have hint : move.interval.toNat < 2 ^ 31 := by
      rw [ge_iff_le, UInt32.not_le, UInt32.lt_iff_toNat_lt] at hbig
      exact hbig
    have hI : move.interval = UInt32.ofInt move.interval.toNat := by
      rw [ofInt_natCast, UInt32.ofNat_toNat]
    have h' : Pending sc ([] ++ ts) := h
    obtain ⟨hfollows, hrest⟩ := checkPoints_follows h' hlen
      (le_refl _) (le_refl _) (by simp) hI (by omega) (by omega) hok
    obtain ⟨n, hn⟩ : ∃ n, move.count.toNat = n + 1 := ⟨move.count.toNat - 1, by omega⟩
    exact ⟨hfollows, n, hn, (hrest n hn).2.2⟩

open Ramp in
/-- **ACCEPTED MOVES** follow the queue, and `add_move` computes the clock of their last step. -/
theorem checkLine_follows (h : Pending sc ts) (hlen : move.count.toNat ≤ ts.length)
    (hok : checkLine sc move = .ok ()) :
    0 < move.count.toNat ∧
      Follows sc.maxError.toNat sc.lastStepClock
        (ramp move.add.toInt move.count.toNat (sc.lastStepClock : ℤ)
          move.interval.toNat) (ts.take move.count.toNat) ∧
      ((sc.lastStepClock + move.interval.toNat + move.ticks.toNat : Nat) : ℤ)
        = stop move.add.toInt move.count.toNat (sc.lastStepClock : ℤ) move.interval.toNat := by
  obtain ⟨hfollows, n, hn, hlast⟩ := checkLine_ramp h hlen hok
  refine ⟨by omega, hfollows, ?_⟩
  have hfirst : (0 : ℤ) ≤ move.interval.toNat := Int.natCast_nonneg _
  rw [hn] at hfollows ⊢
  -- the last step is after the first and near the last clock
  have hnear := h.stop_near hfollows
  rw [getLastD_ramp] at hnear
  obtain ⟨t, ts', hts⟩ : ∃ t ts', ts.take (n + 1) = t :: ts' := by
    cases ts with
    | nil => exact absurd hlen (by simp [hn])
    | cons t ts => exact ⟨t, ts.take n, rfl⟩
  have hfar := hfollows
  rw [hts, ramp] at hfar
  have hlater := hfar.2.le_last
  rw [getLastD_ramp] at hlater
  change _ ≤ stop move.add.toInt (n + 1) (sc.lastStepClock : ℤ) _ at hlater
  have hchoose : move.add = 0 ∨ (n + 1).choose 2 < 2 ^ 30 := by
    by_cases hz : move.add = 0
    · exact .inl hz
    · have ha : move.add.toInt ≠ 0 := fun hc => hz (Int16.toInt_inj.mp hc)
      have hle := choose_le_stop (sc.lastStepClock : ℤ) ha hfirst hlast
      have hmax : clockDiffMax < 2 ^ 30 := by decide
      exact .inr (by omega)
  have hticks := natCast_toNat_ofInt
    (move.add.toInt * (n + 1).choose 2 + move.interval.toNat * n)
  rw [← ticks_eq hn hchoose] at hticks
  have hstop : stop move.add.toInt (n + 1) (sc.lastStepClock : ℤ)
      move.interval.toNat = sc.lastStepClock + move.interval.toNat
        + (move.add.toInt * (n + 1).choose 2 + move.interval.toNat * n) := by
    rw [stop_eq, nsmul_eq_mul, nsmul_eq_mul]
    push_cast
    ring
  have hmax : clockDiffMax < 2 ^ 30 := by decide
  rw [hstop] at hlater hnear ⊢
  generalize move.add.toInt * (n + 1).choose 2 + move.interval.toNat * n
    = d at hticks hlater hnear ⊢
  omega

end Stepcompress
