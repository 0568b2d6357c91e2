import Pick.RunProofs
import Pick.TimerProofs

/-! # Load cell probe (`src/load_cell_probe.c`, `src/sos_filter.c`)

Some steps of the fixed-point arithmetic are checked; the other sums wrap at 32 bits.
The functions are given what becomes of such a sum: the firmware wraps it, the exact
computation keeps it, and the third reading stops where the two would differ. -/

namespace LoadCell

open Timer (timerIsBefore)

/-! ## Model -/

/-- A shutdown, or an unchecked sum that does not fit. -/
inductive Stop where
  | shutdown (message : String)
  | wrapped
deriving DecidableEq

/-- What becomes of an unchecked sum. -/
abbrev Sum := ℤ → Except Stop ℤ

/-- `overflows_int32`. -/
def overflowsInt32 (value : ℤ) : Bool := value > 2 ^ 31 - 1 || value < -2 ^ 31

/-- The sum of the firmware. -/
def wrapped : Sum := fun value => .ok (value.bmod (2 ^ 32))

/-- The exact sum. -/
def unbounded : Sum := .ok

/-- The sum that stops where the two differ. -/
def fitting : Sum := fun value => if overflowsInt32 value then .error .wrapped else .ok value

/-- The coefficients and the state of a section. -/
structure FilterSection where
  (coeff0 coeff1 coeff2 coeff3 coeff4 state0 state1 : ℤ)
deriving DecidableEq

/-- The filter with the sections in use, `n_sections` of them. -/
structure SosFilter where
  isActive : Bool
  (coeffFracBits coeffRounding : ℕ)
  filter : List FilterSection
deriving DecidableEq

/-- `fixed_mul`.  The product fits in 64 bits. -/
def fixedMul (sf : SosFilter) (coeff value : ℤ) : Except Stop ℤ :=
  let result := (coeff * value + sf.coeffRounding) / 2 ^ sf.coeffFracBits
  if overflowsInt32 result then .error (.shutdown "fixed_mul: overflow") else .ok result

/-- One pass of the loop of `sosfilt`. -/
def FilterSection.step (sum : Sum) (sf : SosFilter) (s : FilterSection) (curVal : ℤ) :
    Except Stop (FilterSection × ℤ) := do
  let nextVal ← sum ((← fixedMul sf s.coeff0 curVal) + s.state0)
  -- sums wrap modulo 2^32, so it is enough to wrap the last one
  let state0 ← sum ((← fixedMul sf s.coeff1 curVal) - (← fixedMul sf s.coeff3 nextVal) + s.state1)
  let state1 ← sum ((← fixedMul sf s.coeff2 curVal) - (← fixedMul sf s.coeff4 nextVal))
  return ({ s with state0, state1 }, nextVal)

/-- The loop of `sosfilt`. -/
def filterSections (sum : Sum) (sf : SosFilter) :
    List FilterSection → ℤ → Except Stop (List FilterSection × ℤ)
  | [], curVal => .ok ([], curVal)
  | s :: rest, curVal => do
      let first ← s.step sum sf curVal
      let others ← filterSections sum sf rest first.2
      return (first.1 :: others.1, others.2)

/-- `sosfilt`. -/
def sosfilt (sum : Sum) (sf : SosFilter) (value : ℤ) : Except Stop (List FilterSection × ℤ) :=
  if sf.isActive then filterSections sum sf sf.filter value
  else .error (.shutdown "sos_filter not property initialized")

/-- A probe that is homing. -/
structure Probe where
  (safetyCountsMin safetyCountsMax tareCounts triggerGramsFixed gramsPerCount : ℤ)
  sf : SosFilter
  (awaitHoming isHomingTrigger : Bool)
  (homingStartTime triggerTicks : UInt32)
deriving DecidableEq

/-- `set_endstop_range`. -/
def Probe.setEndstopRange (lce : Probe) (safetyCountsMin safetyCountsMax tareCounts : ℤ)
    (triggerGrams : ℕ) (gramsPerCount : ℤ) : Except Stop Probe :=
  if ¬ safetyCountsMax ≥ safetyCountsMin then .error (.shutdown "Safety range reversed")
  else if triggerGrams > 2 ^ 16 - 1 then .error (.shutdown "trigger_grams too large")
  else if gramsPerCount < 0 ∨ gramsPerCount ≥ 2 ^ 29 then
    .error (.shutdown "grams_per_count is invalid")
  else .ok { lce with
    safetyCountsMin, safetyCountsMax, tareCounts, gramsPerCount
    triggerGramsFixed := triggerGrams * 2 ^ 15 }

/-- `counts_to_grams`. -/
def Probe.countsToGrams (sum : Sum) (lce : Probe) (counts : ℤ) : Except Stop ℤ := do
  let delta ← sum (counts - lce.tareCounts)
  return delta * lce.gramsPerCount / 2 ^ 14

/-- `try_trigger`. -/
def Probe.tryTrigger (lce : Probe) (ticks : UInt32) : Probe :=
  if lce.isHomingTrigger then lce
  else { lce with triggerTicks := ticks, isHomingTrigger := true }

/-- What a sample leads to. -/
inductive Report where
  | early
  | safetyRange
  | overflow
  | filtered (grams : ℤ) (triggers : Bool)
deriving DecidableEq

/-- `load_cell_probe_report_sample`. -/
def Probe.reportSample (sum : Sum) (lce : Probe) (ticks : UInt32) (sample : ℤ) :
    Except Stop (Probe × Report) :=
  if lce.awaitHoming && timerIsBefore ticks lce.homingStartTime then .ok (lce, .early)
  else
    let lce := { lce with awaitHoming := false }
    if sample ≤ lce.safetyCountsMin ∨ sample ≥ lce.safetyCountsMax then .ok (lce, .safetyRange)
    else do
      let rawGrams ← lce.countsToGrams sum sample
      if overflowsInt32 rawGrams then return (lce, .overflow)
      else
        let (filter, grams) ← sosfilt sum lce.sf rawGrams
        let lce := { lce with sf.filter := filter }
        -- `abs` of the least number wraps, too
        if (← sum |grams|) ≥ lce.triggerGramsFixed then
          return (lce.tryTrigger ticks, .filtered grams true)
        else return (lce, .filtered grams false)

/-- The probe after a stream of samples. -/
def Probe.run (sum : Sum) (lce : Probe) (samples : List (UInt32 × ℤ)) : Except Stop Probe :=
  samples.foldlM (fun lce s => Prod.fst <$> lce.reportSample sum s.1 s.2) lce

/-! ## One program, three readings -/

variable {α β : Type}

/-- The three readings agree, or the third one stops. -/
def Agrees (p : Sum → Except Stop α) : Prop :=
  p fitting = .error .wrapped ∨ p wrapped = p fitting ∧ p unbounded = p fitting

theorem agrees_const (x : Except Stop α) : Agrees fun _ => x := .inr ⟨rfl, rfl⟩

theorem agrees_sum (value : ℤ) : Agrees fun sum => sum value := by
  cases h : overflowsInt32 value with
  | true => exact .inl (if_pos h)
  | false =>
    have hfit : fitting value = .ok value := if_neg (by simp [h])
    simp only [overflowsInt32, Bool.or_eq_false_iff, decide_eq_false_iff_not] at h
    refine .inr ⟨?_, hfit.symm⟩
    show Except.ok (value.bmod (2 ^ 32)) = fitting value
    rw [hfit, Int.bmod_eq_of_le (by omega) (by omega)]

theorem Agrees.bind {p : Sum → Except Stop α} {f : Sum → α → Except Stop β}
    (hp : Agrees p) (hf : ∀ a, Agrees fun sum => f sum a) : Agrees fun sum => p sum >>= f sum := by
  rcases hp with h | ⟨hw, hu⟩
  · left
    simp only [h]
    rfl
  · unfold Agrees
    simp only [hw, hu]
    cases p fitting with
    | error e => exact .inr ⟨rfl, rfl⟩
    | ok a => exact hf a

theorem agrees_step (sf : SosFilter) (s : FilterSection) (curVal : ℤ) :
    Agrees fun sum => s.step sum sf curVal :=
  (agrees_const _).bind fun _ => (agrees_sum _).bind fun _ =>
  (agrees_const _).bind fun _ => (agrees_const _).bind fun _ => (agrees_sum _).bind fun _ =>
  (agrees_const _).bind fun _ => (agrees_const _).bind fun _ => (agrees_sum _).bind fun _ =>
  agrees_const _

theorem agrees_filterSections (sf : SosFilter) (sections : List FilterSection) :
    ∀ curVal, Agrees fun sum => filterSections sum sf sections curVal := by
  induction sections with
  | nil => exact fun _ => agrees_const _
  | cons s rest ih =>
    intro curVal
    exact (agrees_step sf s curVal).bind fun first => (ih first.2).bind fun _ => agrees_const _

theorem agrees_countsToGrams (lce : Probe) (counts : ℤ) :
    Agrees fun sum => lce.countsToGrams sum counts :=
  (agrees_sum _).bind fun _ => agrees_const _

theorem agrees_reportSample (lce : Probe) (ticks : UInt32) (sample : ℤ) :
    Agrees fun sum => lce.reportSample sum ticks sample := by
  unfold Probe.reportSample
  split
  · exact agrees_const _
  dsimp only
  split
  · exact agrees_const _
  refine (agrees_countsToGrams _ sample).bind fun rawGrams => ?_
  split
  · exact agrees_const _
  unfold sosfilt
  split
  · exact (agrees_filterSections ..).bind fun _ => (agrees_sum _).bind fun _ => agrees_const _
  · exact agrees_const _

theorem agrees_run (samples : List (UInt32 × ℤ)) :
    ∀ lce : Probe, Agrees fun sum => lce.run sum samples := by
  induction samples with
  | nil => exact fun _ => agrees_const _
  | cons s rest ih =>
    intro lce
    have hstep : Agrees fun sum => Prod.fst <$> lce.reportSample sum s.1 s.2 := by
      simp only [map_eq_pure_bind]
      exact (agrees_reportSample lce s.1 s.2).bind fun _ => agrees_const _
    simp only [Probe.run, List.foldlM_cons]
    exact hstep.bind ih

/-- The exact computation triggers when the magnitude reaches the limit. -/
theorem triggers_iff {lce lce' : Probe} {ticks : UInt32} {sample grams : ℤ} {triggers : Bool}
    (h : lce.reportSample unbounded ticks sample = .ok (lce', .filtered grams triggers)) :
    triggers = true ↔ lce.triggerGramsFixed ≤ |grams| := by
  unfold Probe.reportSample at h
  split at h
  · cases h
  dsimp only at h
  split at h
  · cases h
  obtain ⟨rawGrams, -, h⟩ := Result.bind_eq_ok h
  split at h
  · cases h
  obtain ⟨r, -, h⟩ := Result.bind_eq_ok h
  obtain ⟨magnitude, hm, h⟩ := Result.bind_eq_ok h
  cases hm
  split at h <;> cases h <;> simp_all

/-- Where no unchecked sum leaves 32 bits, a sample gives what the exact computation
    gives, and triggers exactly when the magnitude reaches the limit. -/
theorem reportSample_exact {lce lce₁ : Probe} {before : List (UInt32 × ℤ)} {ticks : UInt32}
    {sample : ℤ} (hrun : lce.run wrapped before = .ok lce₁)
    (hfits : lce.run fitting (before ++ [(ticks, sample)]) ≠ .error .wrapped) :
    lce.run unbounded before = .ok lce₁ ∧
      lce₁.reportSample wrapped ticks sample = lce₁.reportSample unbounded ticks sample ∧
      ∀ lce₂ grams triggers,
        lce₁.reportSample wrapped ticks sample = .ok (lce₂, .filtered grams triggers) →
        (triggers = true ↔ lce₁.triggerGramsFixed ≤ |grams|) := by
  have happend : lce.run fitting (before ++ [(ticks, sample)])
      = lce.run fitting before >>= fun l => Prod.fst <$> l.reportSample fitting ticks sample := by
    simp [Probe.run]
  rw [happend] at hfits
  obtain ⟨hw, hu⟩ := (agrees_run before lce).resolve_left fun h => hfits (congrArg (· >>= _) h)
  have hfit : lce.run fitting before = .ok lce₁ := hw.symm.trans hrun
  rw [hfit] at hfits
  obtain ⟨hw', hu'⟩ := (agrees_reportSample lce₁ ticks sample).resolve_left
    fun h => hfits (congrArg (Prod.fst <$> ·) h)
  have heq := hw'.trans hu'.symm
  exact ⟨hu.trans hfit, heq, fun _ _ _ h => triggers_iff (heq.symm.trans h)⟩

/-! ## A bound on the inputs -/

variable {P : α → Prop} {Q : β → Prop} {sf : SosFilter} {s : FilterSection} {v b b₀ b₁ : ℤ}

/-- No sum has stopped it, and a result satisfies `P`. -/
def Yields (P : α → Prop) : Except Stop α → Prop
  | .ok a => P a
  | .error e => e ≠ .wrapped

theorem Yields.bind {x : Except Stop α} {f : α → Except Stop β} (hx : Yields P x)
    (hf : ∀ a, P a → Yields Q (f a)) : Yields Q (x >>= f) := by
  cases x with
  | error e => exact hx
  | ok a => exact hf a hx

theorem yields_fitting (hv : |v| ≤ b) (hb : b < 2 ^ 31) : Yields (|·| ≤ b) (fitting v) := by
  obtain ⟨hlo, hhi⟩ := abs_le.mp hv
  rw [fitting, if_neg]
  · exact hv
  · simp only [overflowsInt32, Bool.or_eq_true, decide_eq_true_eq]
    omega

/-- A bound on the product with a number of magnitude `b`, after rounding. -/
def gain (rounding fracBits : ℕ) (coeff b : ℤ) : ℤ := (|coeff| * b + rounding) / 2 ^ fracBits + 1

theorem abs_scaled_le (hv : |v| ≤ b) (r k : ℕ) (coeff : ℤ) :
    |(coeff * v + r) / 2 ^ k| ≤ gain r k coeff b := by
  have hpos : (0 : ℤ) < 2 ^ k := by positivity
  obtain ⟨hlo, hhi⟩ := abs_le.mp (abs_mul coeff v ▸ mul_le_mul_of_nonneg_left hv (abs_nonneg coeff))
  have hlt := Int.lt_ediv_add_one_mul_self (|coeff| * b + r) hpos
  rw [gain]
  refine abs_le.mpr ⟨(Int.le_ediv_iff_mul_le hpos).mpr ?_, ?_⟩
  · rw [neg_mul]
    omega
  · have hle := Int.ediv_le_ediv hpos (add_le_add_left hhi (r : ℤ))
    omega

/-- The bound for a coefficient of the filter. -/
def SosFilter.gain (sf : SosFilter) : ℤ → ℤ → ℤ := LoadCell.gain sf.coeffRounding sf.coeffFracBits

theorem yields_fixedMul (hv : |v| ≤ b) (coeff : ℤ) :
    Yields (|·| ≤ sf.gain coeff b) (fixedMul sf coeff v) := by
  rw [fixedMul]
  split
  · exact nofun
  · exact abs_scaled_le hv ..

/-- A section that is given at most `b` keeps its state below `b₀` and `b₁`. -/
structure FilterSection.Keeps (gain : ℤ → ℤ → ℤ) (b b₀ b₁ : ℤ) (s : FilterSection) : Prop where
  state0 : |s.state0| ≤ b₀
  state1 : |s.state1| ≤ b₁
  fits : gain s.coeff0 b + b₀ < 2 ^ 31
  keeps0 : gain s.coeff1 b + gain s.coeff3 (gain s.coeff0 b + b₀) + b₁ ≤ b₀
  keeps1 : gain s.coeff2 b + gain s.coeff4 (gain s.coeff0 b + b₀) ≤ b₁

theorem FilterSection.Keeps.step (h : s.Keeps sf.gain b b₀ b₁) (hv : |v| ≤ b) :
    Yields (fun r => r.1.Keeps sf.gain b b₀ b₁ ∧ r.1.coeff0 = s.coeff0 ∧
      |r.2| ≤ sf.gain s.coeff0 b + b₀) (s.step fitting sf v) := by
  refine (yields_fixedMul hv s.coeff0).bind fun f₀ h₀ => ?_
  refine (yields_fitting ((abs_add_le ..).trans (add_le_add h₀ h.state0)) h.fits).bind
    fun next hnext => ?_
  refine (yields_fixedMul hv s.coeff1).bind fun f₁ h₁ => ?_
  refine (yields_fixedMul hnext s.coeff3).bind fun f₃ h₃ => ?_
  have hsum : |f₁ - f₃ + s.state1| ≤ b₀ :=
    (abs_add_le ..).trans ((add_le_add ((abs_sub ..).trans (add_le_add h₁ h₃)) h.state1).trans
      h.keeps0)
  have hb₀ : b₀ < 2 ^ 31 := lt_of_le_of_lt (le_add_of_nonneg_left ((abs_nonneg _).trans h₀)) h.fits
  refine (yields_fitting hsum hb₀).bind fun state0 hstate0 => ?_
  refine (yields_fixedMul hv s.coeff2).bind fun f₂ h₂ => ?_
  refine (yields_fixedMul hnext s.coeff4).bind fun f₄ h₄ => ?_
  have hb₁ : b₁ ≤ b₀ :=
    (le_add_of_nonneg_left (add_nonneg ((abs_nonneg _).trans h₁) ((abs_nonneg _).trans h₃))).trans
      h.keeps0
  refine (yields_fitting (((abs_sub ..).trans (add_le_add h₂ h₄)).trans h.keeps1)
    (hb₁.trans_lt hb₀)).bind fun state1 hstate1 => ?_
  exact ⟨{ h with state0 := hstate0, state1 := hstate1 }, rfl, hnext⟩

/-- Each section keeps its state for what those before it let through. -/
def Keep (gain : ℤ → ℤ → ℤ) : ℤ → List FilterSection → Prop
  | b, [] => b < 2 ^ 31
  | b, s :: rest => ∃ b₀ b₁, s.Keeps gain b b₀ b₁ ∧ Keep gain (gain s.coeff0 b + b₀) rest

theorem Keep.filterSections {sections : List FilterSection} (h : Keep sf.gain b sections)
    (hv : |v| ≤ b) : Yields (fun r => Keep sf.gain b r.1 ∧ |r.2| < 2 ^ 31)
      (filterSections fitting sf sections v) := by
  induction sections generalizing v b with
  | nil => exact ⟨h, hv.trans_lt h⟩
  | cons s rest ih =>
    obtain ⟨b₀, b₁, hs, hrest⟩ := h
    refine (hs.step hv).bind fun first hfirst => (ih hrest hfirst.2.2).bind fun others ho => ?_
    exact ⟨⟨b₀, b₁, hfirst.1, hfirst.2.1 ▸ ho.1⟩, ho.2⟩

/-- The safety range is near the tare, and the filter keeps what is weighed there. -/
def Probe.Bounded (lce : Probe) : Prop :=
  ∃ reach < 2 ^ 31, lce.safetyCountsMax - lce.tareCounts ≤ reach ∧
    lce.tareCounts - lce.safetyCountsMin ≤ reach ∧
    Keep lce.sf.gain (gain 0 14 lce.gramsPerCount reach) lce.sf.filter

theorem Probe.Bounded.reportSample {lce : Probe} (h : lce.Bounded) (ticks : UInt32) (sample : ℤ) :
    Yields (Probe.Bounded ·.1) (lce.reportSample fitting ticks sample) := by
  unfold Probe.reportSample
  split
  · exact h
  dsimp only
  split
  · exact h
  have ⟨reach, hreach, hmax, hmin, hkeep⟩ := h
  have hdelta : |sample - lce.tareCounts| ≤ reach := abs_le.mpr (by omega)
  refine Yields.bind (P := (|·| ≤ gain 0 14 lce.gramsPerCount reach)) ?_ fun raw hraw => ?_
  · refine (yields_fitting hdelta hreach).bind fun delta hd => ?_
    have hscaled := abs_scaled_le hd 0 14 lce.gramsPerCount
    rwa [Nat.cast_zero, add_zero, mul_comm] at hscaled
  split
  · exact h
  rw [sosfilt]
  split
  · refine (hkeep.filterSections hraw).bind fun r hr => ?_
    refine (yields_fitting (abs_abs r.2).le hr.2).bind fun magnitude _ => ?_
    have h' : Probe.Bounded { lce with sf.filter := r.1 } := ⟨reach, hreach, hmax, hmin, hr.1⟩
    split
    · rw [Probe.tryTrigger]
      split <;> exact h'
    · exact h'
  · exact nofun

/-- **A BOUND THAT SUFFICES**: within it no unchecked sum leaves 32 bits, in any run. -/
theorem Probe.Bounded.run {lce : Probe} (h : lce.Bounded) (samples : List (UInt32 × ℤ)) :
    lce.run fitting samples ≠ .error .wrapped := by
  have hrun : Yields Probe.Bounded (lce.run fitting samples) := by
    induction samples generalizing lce with
    | nil => exact h
    | cons s rest ih =>
      have hstep := h.reportSample s.1 s.2
      rw [Probe.run, List.foldlM_cons]
      generalize lce.reportSample fitting s.1 s.2 = x at hstep ⊢
      cases x with
      | error e => exact hstep
      | ok r => exact ih hstep
  intro hwrapped
  rw [hwrapped] at hrun
  exact hrun rfl

/-! ## Two probes -/

/-- A probe that homes with this filter. -/
def homing (filter : List FilterSection) : Probe :=
  ⟨0, 0, 0, 0, 0, ⟨true, 29, 2 ^ 28, filter⟩, true, false, 0, 0⟩

/-- A filter that halves, after a sample. -/
theorem reportSample_exact_halved : ∃ lce lce₁,
    (homing [⟨2 ^ 28, 0, 0, 0, 0, 0, 0⟩]).setEndstopRange (-9) 9 5 1 (2 ^ 28) = .ok lce ∧
      lce.run unbounded [(0, 7)] = .ok lce₁ ∧
      lce₁.reportSample wrapped 1 8 = lce₁.reportSample unbounded 1 8 :=
  have hrun := @reportSample_exact _ _ _ 1 8 rfl <| Probe.Bounded.run
    ⟨14, by decide, by decide, by decide, by
      exact ⟨4, 2, by constructor <;> decide, by rw [Keep]; decide⟩⟩ _
  ⟨_, _, rfl, hrun.1, hrun.2.1⟩

/-- The difference from the tare wraps: 7 grams are taken for less than one. -/
theorem tare_wraps : ∃ lce,
    (homing []).setEndstopRange (-2 ^ 31) (2 ^ 31 - 1) (-2000000000) 1 1 = .ok lce ∧
      (lce.reportSample wrapped 0 2000000000).map Prod.snd = .ok (.filtered (-18004) false) ∧
      (lce.reportSample unbounded 0 2000000000).map Prod.snd = .ok (.filtered 244140 true) :=
  ⟨_, rfl, by decide +kernel⟩

end LoadCell
