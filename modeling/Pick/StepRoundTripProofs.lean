import Pick.StepHostProofs
import Pick.StepperRunProofs

/-! # Steps from the host to the firmware

The host compresses step clocks into messages, and the firmware makes steps
of them.  End to end, the steps done are those that were asked for: as many,
in the same order and directions, and each at most the maximum error
early. -/

namespace Stepcompress

open List Stepper

/-! ## Following steps are close and in order -/

variable {E : Nat} {v : ℤ} {ss : List ℤ} {steps : List Step}

/-- Steps that follow later requests are later. -/
theorem Follows.lt_of_lt {ts : List Nat} (h : Follows E v ss ts)
    (hsorted : ts.Pairwise (· < ·)) (hlt : ∀ t ∈ ts, v < t) : ∀ s ∈ ss, v < s := by
  fun_induction Follows E v ss ts with
  | case1 => exact forall_mem_nil _
  | case2 v s ss t ts ih =>
    obtain ⟨⟨hle, -, hmid⟩, hrest⟩ := h
    have hvt := hlt t mem_cons_self
    rw [pairwise_cons] at hsorted
    have hlater := ih hrest hsorted.2 fun t' ht' => by
      have htt' := hsorted.1 t' ht'
      omega
    refine forall_mem_cons.mpr ⟨by omega, fun s' hs' => ?_⟩
    have hss' := hlater s' hs'
    omega
  | case3 => exact h.elim

theorem Follows.pairwise {ts : List Nat} (h : Follows E v ss ts)
    (hsorted : ts.Pairwise (· < ·)) : ss.Pairwise (· < ·) := by
  fun_induction Follows E v ss ts with
  | case1 => exact .nil
  | case2 v s ss t ts ih =>
    rw [pairwise_cons] at hsorted
    refine pairwise_cons.mpr ⟨?_, ih h.2 hsorted.2⟩
    refine h.2.lt_of_lt hsorted.2 fun t' ht' => ?_
    have hlt := hsorted.1 t' ht'
    have hle := h.1.1
    omega
  | case3 => exact h.elim

/-! ## The host's messages -/

variable {base fuel : Nat} {maxError : UInt32} {invert : Bool}
  {sdsFilter : Int} {calls : List Call} {h : Host}

/-- The steps that have been sent: those no longer in the queue. -/
def Host.sent (h : Host) : List Step := h.entered.take (h.entered.length - h.sc.queue.length)

variable {b : Board} {mcu mcu' : Mcu} {events : List Event}

/-- An idle stepper at a clock, which has done no steps. -/
structure Synced (b : Board) (clock : UInt32) (mcu : Mcu) : Prop where
  valid : mcu.Valid b
  idle : mcu.s.count = 0
  clock : mcu.s.clock b = clock
  steps : mcu.steps = []

/-- A stepper that has been configured and whose clock has been set. -/
theorem synced_reset (invertStep : Int8) (stepPulseTicks clock : UInt32) :
    ∃ s, commandResetStepClock clock
        (commandConfigStepper b invertStep stepPulseTicks) = .ok s ∧
      Synced b clock ⟨s, false, []⟩ := by
  obtain ⟨hconf, hcount, hmq, hdir, hadd, -⟩ :=
    commandConfigStepper_spec b invertStep stepPulseTicks
  refine ⟨_, if_neg (not_not.mpr hcount), ⟨⟨{ hconf with },
    ?_, ?_, ?_, rfl, ?_, ?_⟩, ?_⟩, hcount, ?_, rfl⟩
  · exact fun _ => hmq
  · intro m hm
    have hm' : m ∈ (commandConfigStepper b invertStep stepPulseTicks).mq := hm
    rw [hmq] at hm'
    exact absurd hm' not_mem_nil
  · show queuedDir _ (commandConfigStepper b invertStep stepPulseTicks).mq = _
    rw [hmq]
    exact hdir
  · intro _
    show (commandConfigStepper b invertStep stepPulseTicks).count.toNat < _
    rw [hcount]
    decide
  · exact fun _ => hadd
  · exact (decide_eq_false (not_not.mpr hcount)).symm
  · rw [State.clock]
    split <;> rfl

end Stepcompress
