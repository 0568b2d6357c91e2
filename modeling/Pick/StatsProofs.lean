import Mathlib

/-! # Load statistics (`src/basecmd.c`)

After each round of the tasks `stats_update` counts it, adds how long it took and
adds the square of that, in 32 bits, and every five seconds it sends the three
totals and starts again.  The squares are divided by 256, the long ones before they
are multiplied, and their sum has to stop at the largest number: the other two wrap. -/

namespace Stats

open List

/-! ## Model -/

/-- The static variables of `stats_update`, which are also what a report holds. -/
structure Totals where
  count : UInt32
  sum : UInt32
  sumsq : UInt32

/-- The totals, `stats_send_time` and `stats_send_time_high`. -/
structure State where
  totals : Totals
  sendTime : UInt32
  sendTimeHigh : UInt32

/-- All is zero. -/
def State.init : State := ⟨⟨0, 0, 0⟩, 0, 0⟩

/-- `timer_has_elapsed`. -/
def timerHasElapsed (start cur duration : UInt32) : Bool := decide (cur - start ≥ duration)

/-- `DIV_ROUND_UP`. -/
def divRoundUp (n d : UInt32) : UInt32 := (n + d - 1) / d

/-- `SUMSQ_BASE`. -/
def sumsqBase : UInt32 := 256

/-- `nextsumsq`. -/
def nextSumsq (sumsq diff : UInt32) : UInt32 :=
  let next :=
    if diff ≤ 0xffff then sumsq + divRoundUp (diff * diff) sumsqBase
    else if diff ≤ 0xfffff then sumsq + divRoundUp diff sumsqBase * diff
    else 0xffffffff
  if next < sumsq then 0xffffffff else next

/-- The first part of `stats_update`. -/
def Totals.add (t : Totals) (diff : UInt32) : Totals :=
  ⟨t.count + 1, t.sum + diff, nextSumsq t.sumsq diff⟩

/-- `stats_update`, with the report that it sends if any; `interval` is `timer_from_us(5000000)`. -/
def statsUpdate (interval start cur : UInt32) (s : State) : State × Option Totals :=
  let totals := s.totals.add (cur - start)
  if !timerHasElapsed s.sendTime cur interval then ({ s with totals := totals }, none)
  else
    let high := if cur < s.sendTime then s.sendTimeHigh + 1 else s.sendTimeHigh
    (⟨⟨0, 0, 0⟩, cur, high⟩, some totals)

/-- A call of `stats_update`: how long the tasks took, and the report. -/
structure Call where
  duration : UInt32
  report : Option Totals

/-- One call, for the given times; the calls are kept with the last one first. -/
def step (interval : UInt32) (r : State × List Call) (task : UInt32 × UInt32) : State × List Call :=
  let u := statsUpdate interval task.1 task.2 r.1
  (u.1, ⟨task.2 - task.1, u.2⟩ :: r.2)

/-- The calls since the firmware was started. -/
def run (interval : UInt32) (tasks : List (UInt32 × UInt32)) : State × List Call :=
  tasks.foldl (step interval) (State.init, [])

/-! ## What is summed up -/

/-- The durations since the last report. -/
def sinceReport : List Call → List Nat
  | [] => []
  | ⟨_, some _⟩ :: _ => []
  | ⟨duration, none⟩ :: calls => duration.toNat :: sinceReport calls

/-- What a duration adds to the sum of squares. -/
def term (duration : Nat) : Nat :=
  if duration ≤ 0xffff then duration ^ 2 ⌈/⌉ 256
  else if duration ≤ 0xfffff then duration * (duration ⌈/⌉ 256)
  else 2 ^ 32 - 1

/-- The totals of some durations, in 32 bits. -/
structure Totals.Of (t : Totals) (durations : List Nat) : Prop where
  count : t.count.toNat = durations.length % 2 ^ 32
  sum : t.sum.toNat = durations.sum % 2 ^ 32
  sumsq : t.sumsq.toNat = min (2 ^ 32 - 1) (durations.map term).sum

/-! ## One task -/

theorem toNat_divRoundUp {n : UInt32} (hn : n.toNat ≤ 2 ^ 32 - 256) :
    (divRoundUp n sumsqBase).toNat = n.toNat ⌈/⌉ 256 := by
  have hsum : (n + sumsqBase - 1).toNat = n.toNat + 256 - 1 := by
    rw [UInt32.toNat_sub, UInt32.toNat_add]
    show (2 ^ 32 - 1 + (n.toNat + 256) % 2 ^ 32) % 2 ^ 32 = _
    omega
  rw [divRoundUp, UInt32.toNat_div, hsum]
  rfl

/-- A sum that is smaller than what was added to has wrapped. -/
theorem toNat_add_saturated (a b : UInt32) :
    (if a + b < a then 0xffffffff else a + b).toNat = min (2 ^ 32 - 1) (a.toNat + b.toNat) := by
  have ha := a.toNat_lt
  have hb := b.toNat_lt
  have hmax : (0xffffffff : UInt32).toNat = 2 ^ 32 - 1 := rfl
  rw [apply_ite UInt32.toNat]
  simp only [UInt32.lt_iff_toNat_lt, UInt32.toNat_add]
  split <;> omega

/-- **ONE TASK**: neither its term nor the sum with it leaves 32 bits unseen. -/
theorem toNat_nextSumsq (sumsq diff : UInt32) :
    (nextSumsq sumsq diff).toNat = min (2 ^ 32 - 1) (sumsq.toNat + term diff.toNat) := by
  rw [nextSumsq, term]
  by_cases hshort : diff ≤ 0xffff
  · have hd : diff.toNat ≤ 0xffff := hshort
    have hle : diff.toNat * diff.toNat ≤ 0xffff * 0xffff := Nat.mul_le_mul hd hd
    have hsq : (diff * diff).toNat = diff.toNat ^ 2 := by
      rw [UInt32.toNat_mul, Nat.mod_eq_of_lt (hle.trans_lt (by decide)), pow_two]
    rw [if_pos hshort, if_pos hd, toNat_add_saturated, toNat_divRoundUp, hsq]
    rw [hsq, pow_two]
    exact hle.trans (by decide)
  · have hlong : ¬ diff.toNat ≤ 0xffff := hshort
    rw [if_neg hshort, if_neg hlong]
    by_cases hmedium : diff ≤ 0xfffff
    · have hd : diff.toNat ≤ 0xfffff := hmedium
      have hdiv := toNat_divRoundUp (hd.trans (by decide))
      have hceil : diff.toNat ⌈/⌉ 256 ≤ 0x1000 :=
        (ceilDiv_le_iff_le_mul (by decide)).mpr (hd.trans (by decide))
      have hle := Nat.mul_le_mul hceil hd
      rw [if_pos hmedium, if_pos hd, toNat_add_saturated, UInt32.toNat_mul, hdiv,
        Nat.mod_eq_of_lt (hle.trans_lt (by decide)), mul_comm]
    · have hlonger : ¬ diff.toNat ≤ 0xfffff := hmedium
      rw [if_neg hmedium, if_neg hlonger, ite_self]
      exact (min_eq_left (Nat.le_add_left _ _)).symm

/-- A task is added to the totals. -/
theorem Totals.Of.add {t : Totals} {durations : List Nat} (h : t.Of durations)
    (diff : UInt32) : (t.add diff).Of (diff.toNat :: durations) where
  count := by
    rw [Totals.add, UInt32.toNat_add, h.count, Nat.mod_add_mod]
    rfl
  sum := by rw [Totals.add, UInt32.toNat_add, h.sum, Nat.mod_add_mod, sum_cons, add_comm]
  sumsq := by
    rw [Totals.add, toNat_nextSumsq, h.sumsq, map_cons, sum_cons]
    omega

theorem totals_of_nil : Totals.Of ⟨0, 0, 0⟩ [] := ⟨rfl, rfl, rfl⟩

/-! ## Runs -/

/-- The totals are those since the last report, and so was every report. -/
structure Counts (r : State × List Call) : Prop where
  totals : r.1.totals.Of (sinceReport r.2)
  reports : ∀ c calls, c :: calls <:+ r.2 → ∀ t ∈ c.report,
    t.Of (c.duration.toNat :: sinceReport calls)

theorem statsUpdate_eq (interval start cur : UInt32) (s : State) :
    statsUpdate interval start cur s
        = ({ s with totals := s.totals.add (cur - start) }, none) ∨
      ∃ high, statsUpdate interval start cur s
        = (⟨⟨0, 0, 0⟩, cur, high⟩, some (s.totals.add (cur - start))) := by
  rw [statsUpdate]
  split
  · exact .inl rfl
  · exact .inr ⟨_, rfl⟩

theorem Counts.step {r : State × List Call} (h : Counts r) (interval : UInt32)
    (task : UInt32 × UInt32) : Counts (step interval r task) := by
  have hadd := h.totals.add (task.2 - task.1)
  rw [Stats.step]
  rcases statsUpdate_eq interval task.1 task.2 r.1 with hu | ⟨high, hu⟩
  · rw [hu]
    refine ⟨hadd, fun c calls hcalls => ?_⟩
    rcases suffix_cons_iff.mp hcalls with heq | hold
    · cases heq
      exact nofun
    · exact h.reports c calls hold
  · rw [hu]
    refine ⟨totals_of_nil, fun c calls hcalls => ?_⟩
    rcases suffix_cons_iff.mp hcalls with heq | hold
    · cases heq
      rintro _ ⟨⟩
      exact hadd
    · exact h.reports c calls hold

theorem counts_run (interval : UInt32) (tasks : List (UInt32 × UInt32)) :
    Counts (run interval tasks) := by
  refine List.foldlRecOn (motive := Counts) tasks _ ⟨totals_of_nil, ?_⟩
    fun r h task _ => h.step interval task
  intro c calls hcalls
  exact nomatch suffix_nil.mp hcalls

/-- **THE SUM OF SQUARES SATURATES**: it always is the exact one since the last report, or the
    largest number. -/
theorem sumsq_saturates (interval : UInt32) (tasks : List (UInt32 × UInt32)) :
    (run interval tasks).1.totals.sumsq.toNat
        = min (2 ^ 32 - 1) ((sinceReport (run interval tasks).2).map term).sum ∧
      ∀ c calls, c :: calls <:+ (run interval tasks).2 → ∀ t ∈ c.report,
        t.sumsq.toNat
          = min (2 ^ 32 - 1) ((c.duration.toNat :: sinceReport calls).map term).sum := by
  have h := counts_run interval tasks
  refine ⟨h.totals.sumsq, ?_⟩
  intro c calls hcalls t ht
  exact (h.reports c calls hcalls t ht).sumsq

end Stats
