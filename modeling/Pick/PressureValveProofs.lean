import Pick.NumberProofs

/-! # Waiting for a pressure (`klippy/extras/pressure_valve.py`)

`VALVE_WAIT` opens a valve and polls its sensor until the pressure is in a
range or a time has passed.  The loop is that of `wait_for_pressure`, which
`VALVE_PICK` and `VALVE_CHECK` use.

`VALVE_WAIT` does not get that far.  It reads `FAIL` with a method that
`GCodeCommand` does not have, which ends in a shutdown; and behind that its
loop is given the range of the configuration, not the one asked for. -/

namespace PressureValve

variable {K : Type} [Field K] [LinearOrder K]

/-! ## Polling -/

/-- What a loop will meet: the times it wakes up at, the pressures read and whether the printer
    is shut down.  A pause is never shorter than asked for. -/
structure Polls (K : Type) [Field K] [LinearOrder K] where
  time : ℕ → K
  pressure : ℕ → K
  isShutdown : ℕ → Bool
  later : ∀ n, time n + 1 / 10 ≤ time (n + 1)

/-- How a loop ends: with a pressure in the range, or without one.  `cur` and
    `time_diff` are not bound if there was no poll. -/
inductive Exit (K : Type) where
  | reached (cur : K)
  | stopped (last : Option (K × K))
  deriving DecidableEq

variable (polls : Polls K) (low high timeout : K)

/-- The loop of `cmd_VALVE_WAIT` and of `wait_for_pressure`, from poll `n` on. -/
def waitLoop : (fuel n : ℕ) → Option (K × K) → Option (Exit K)
  | 0, _, _ => none
  | fuel + 1, n, last =>
    if polls.isShutdown n then some (.stopped last)
    else
      let cur := polls.pressure n
      if cur ≥ low ∧ cur ≤ high then some (.reached cur)
      else
        let timeDiff := polls.time n - polls.time 0
        if timeDiff > timeout then some (.stopped (some (cur, timeDiff)))
        else waitLoop fuel (n + 1) (some (cur, timeDiff))

/-! ## The command -/

/-- The attributes of a `GCodeCommand`. -/
def gcodeCommandAttributes : List String :=
  ["error", "_command", "_commandline", "_params", "_need_ack", "respond_info",
   "respond_raw", "get_command", "get_commandline", "get_command_parameters",
   "get_raw_command_parameters", "ack", "sentinel", "get", "get_int", "get_float",
   "get_ast_eval"]

/-- The errors of the commands. -/
inductive Failure (K : Type) where
  /-- `Error on '%s': %s must be above %s`. -/
  | mustBeAbove (name : String) (above : K)
  /-- `Error on 'VALVE_WAIT': missing MINIMUM or MAXIMUM.` -/
  | missing
  /-- `VALVE_WAIT timeout after %.1f seconds`. -/
  | timeout (seconds : K)
  /-- Any exception that is no command error. -/
  | internal
  deriving DecidableEq

/-- The parameters of `VALVE_WAIT`; `fail` is what `FAIL` is meant to say. -/
structure WaitParams (K : Type) where
  minimum : Option K
  maximum : Option K
  timeout : Option K
  fail : Bool

/-- The range of the `[pressure_valve]` section. -/
structure Config (K : Type) [LinearOrder K] where
  minPressure : K
  maxPressure : K
  above_min : minPressure < maxPressure

/-- How a command ends, and whether the valve is open then. -/
structure Outcome (K : Type) where
  result : Except (Failure K) Unit
  isOpen : Bool

/-- `gcmd.get_float('MAXIMUM', inf, above=min_pressure)`: only a given value is checked. -/
def WaitParams.getMaximum (p : WaitParams K) : Except (Failure K) (Option K) :=
  match p.maximum, p.minimum with
  | some maximum, some minimum =>
    if maximum ≤ minimum then .error (.mustBeAbove "MAXIMUM" minimum)
    else .ok (some maximum)
  | maximum, _ => .ok maximum

/-- `gcmd.get_boolean('FAIL', False)`. -/
def WaitParams.getFail (p : WaitParams K) : Except (Failure K) Bool :=
  if "get_boolean" ∈ gcodeCommandAttributes then .ok p.fail else .error .internal

/-- What follows the loop of `cmd_VALVE_WAIT`. -/
def Exit.outcome (fail : Bool) : Exit K → Outcome K
  | .reached _ => ⟨.ok (), true⟩
  -- no poll: `cur` is not bound
  | .stopped none => ⟨.error .internal, false⟩
  | .stopped (some (_, timeDiff)) => ⟨if fail then .error (.timeout timeDiff) else .ok (), false⟩

/-- `cmd_VALVE_WAIT` once it has its parameters. -/
def waitBody (cfg : Config K) (polls : Polls K) (debugoutput isOpen : Bool)
    (minimum maximum : Option K) (timeout : K) (fail : Bool) (fuel : ℕ) : Option (Outcome K) :=
  if minimum = none ∧ maximum = none then some ⟨.error .missing, isOpen⟩
  else if debugoutput then some ⟨.ok (), isOpen⟩
  else
    (waitLoop polls cfg.minPressure cfg.maxPressure timeout fuel 0 none).map (Exit.outcome fail)

/-- `cmd_VALVE_WAIT`. -/
def cmdValveWait (cfg : Config K) (polls : Polls K) (debugoutput isOpen : Bool)
    (p : WaitParams K) (fuel : ℕ) : Option (Outcome K) :=
  match (do
    let maximum ← p.getMaximum
    let fail ← p.getFail
    pure (maximum, fail)) with
  | .error failure => some ⟨.error failure, isOpen⟩
  | .ok (maximum, fail) =>
    waitBody cfg polls debugoutput isOpen p.minimum maximum (p.timeout.getD 1) fail fuel

/-- The command as `_process_commands` runs it: an internal error shuts the
    printer down, which closes the valve. -/
def valveWait (cfg : Config K) (polls : Polls K) (debugoutput isOpen : Bool)
    (p : WaitParams K) (fuel : ℕ) : Option (Outcome K) :=
  (cmdValveWait cfg polls debugoutput isOpen p fuel).map fun outcome =>
    match outcome.result with
    | .error .internal => { outcome with isOpen := false }
    | _ => outcome

/-! ## Waiting for the range asked for -/

/-- The range that is asked for. -/
def WaitParams.InRange (p : WaitParams K) (pressure : K) : Prop :=
  (∀ minimum ∈ p.minimum, minimum ≤ pressure) ∧ (∀ maximum ∈ p.maximum, pressure ≤ maximum)

/-- A pressure in the range that is asked for comes up in time, before a shutdown. -/
def WaitParams.Arrives (p : WaitParams K) (polls : Polls K) : Prop :=
  ∃ n, (∀ m ≤ n, polls.isShutdown m = false) ∧
    polls.time n - polls.time 0 ≤ p.timeout.getD 1 ∧ p.InRange (polls.pressure n)

/-- The range asked for is empty or a single pressure. -/
def WaitParams.Refused (p : WaitParams K) : Prop :=
  ∃ minimum ∈ p.minimum, ∃ maximum ∈ p.maximum, maximum ≤ minimum

/-- It ends without an error, with an open valve. -/
def Outcome.Succeeds (outcome : Outcome K) : Prop := outcome.result = .ok () ∧ outcome.isOpen = true

/-- The command ends: with an open valve exactly if a pressure in the range comes
    up, and otherwise with a closed one, and with an error if `FAIL` is set. -/
def WaitsForRange (cfg : Config K) (polls : Polls K) (debugoutput isOpen : Bool)
    (p : WaitParams K) : Prop :=
  ∃ fuel outcome, valveWait cfg polls debugoutput isOpen p fuel = some outcome ∧
    (outcome.Succeeds ↔ p.Arrives polls) ∧
    (¬ outcome.Succeeds → outcome.isOpen = false ∧
      (p.fail = true → ∃ failure, outcome.result = .error failure))

variable {cfg : Config K} {debugoutput isOpen : Bool} {p : WaitParams K}

omit [Field K] [LinearOrder K] in
theorem WaitParams.getFail_eq (p : WaitParams K) : p.getFail = .error .internal :=
  if_neg (by decide)

omit [Field K] in
theorem WaitParams.getMaximum_cases (p : WaitParams K) :
    (p.Refused ∧ ∃ above, p.getMaximum = .error (.mustBeAbove "MAXIMUM" above)) ∨
      (¬ p.Refused ∧ p.getMaximum = .ok p.maximum) := by
  obtain ⟨minimum, maximum, timeout, fail⟩ := p
  cases minimum with
  | none =>
    refine .inr ⟨?_, ?_⟩
    · rintro ⟨_, hmin, -⟩
      cases hmin
    · cases maximum with
      | none => rfl
      | some maximum => rfl
  | some minimum =>
    cases maximum with
    | none =>
      refine .inr ⟨?_, rfl⟩
      rintro ⟨_, -, _, hmax, -⟩
      cases hmax
    | some maximum =>
      by_cases hle : maximum ≤ minimum
      · exact .inl ⟨⟨minimum, rfl, maximum, rfl, hle⟩, minimum, if_pos hle⟩
      · refine .inr ⟨?_, if_neg hle⟩
        rintro ⟨_, hmin, _, hmax, hle'⟩
        cases hmin
        cases hmax
        exact hle hle'

/-- The command fails whatever it is given, with a closed valve unless the range is refused. -/
theorem valveWait_fails (cfg : Config K) (polls : Polls K)
    (debugoutput isOpen : Bool) (p : WaitParams K) (fuel : ℕ) :
    ∃ outcome, valveWait cfg polls debugoutput isOpen p fuel = some outcome ∧
      ¬ outcome.Succeeds ∧ (∃ failure, outcome.result = .error failure) ∧
        ((p.Refused ∧ outcome.isOpen = isOpen) ∨ (¬ p.Refused ∧ outcome.isOpen = false)) := by
  rcases p.getMaximum_cases with ⟨hrefused, above, hmax⟩ | ⟨hrefused, hmax⟩
  · refine ⟨⟨.error (.mustBeAbove "MAXIMUM" above), isOpen⟩, ?_, (fun h => nomatch h.1),
      ⟨_, rfl⟩, .inl ⟨hrefused, rfl⟩⟩
    rw [valveWait, cmdValveWait, hmax]
    rfl
  · refine ⟨⟨.error .internal, false⟩, ?_, (fun h => nomatch h.1), ⟨_, rfl⟩, .inr ⟨hrefused, rfl⟩⟩
    rw [valveWait, cmdValveWait, hmax, p.getFail_eq]
    rfl

/-- **VALVE_WAIT NEVER SUCCEEDS**: it does what is asked exactly if no pressure in the range asked
    for comes up in time, and the valve is closed before if the range is refused. -/
theorem valveWait_waits_iff (cfg : Config K) (polls : Polls K)
    (debugoutput isOpen : Bool) (p : WaitParams K) :
    WaitsForRange cfg polls debugoutput isOpen p ↔
      ¬ p.Arrives polls ∧ (p.Refused → isOpen = false) := by
  constructor
  · rintro ⟨fuel, outcome, hrun, hiff, hclosed⟩
    obtain ⟨outcome', hrun', hfails, -, hvalve⟩ :=
      valveWait_fails cfg polls debugoutput isOpen p fuel
    cases Option.some.inj (hrun.symm.trans hrun')
    refine ⟨fun h => hfails (hiff.mpr h), fun hrefused => ?_⟩
    rcases hvalve with ⟨-, heq⟩ | ⟨hnot, -⟩
    · exact heq.symm.trans (hclosed hfails).1
    · exact absurd hrefused hnot
  · rintro ⟨hnever, hbefore⟩
    obtain ⟨outcome, hrun, hfails, hresult, hvalve⟩ :=
      valveWait_fails cfg polls debugoutput isOpen p 0
    refine ⟨0, outcome, hrun, iff_of_false hfails hnever, fun _ => ⟨?_, ?_⟩⟩
    · rcases hvalve with ⟨hrefused, heq⟩ | ⟨-, hclosed⟩
      · exact heq.trans (hbefore hrefused)
      · exact hclosed
    · exact fun _ => hresult

/-- A sensor that reads -30 at every poll, once a second. -/
def Polls.steady : Polls ℚ where
  time n := n
  pressure _ := -30
  isShutdown _ := false
  later n := by
    push_cast
    linarith

/-- The pressure is in the range from the first poll on, and the command fails. -/
theorem valveWait_misses_range :
    ¬ WaitsForRange ⟨-100000, 100000, by decide +kernel⟩ Polls.steady false false
      ⟨some (-50), some (-20), none, false⟩ := by
  rintro ⟨fuel, outcome, hrun, hiff, -⟩
  obtain ⟨outcome', hrun', hfails, -⟩ := valveWait_fails
    ⟨-100000, 100000, by decide +kernel⟩ Polls.steady false false
    ⟨some (-50), some (-20), none, false⟩ fuel
  cases Option.some.inj (hrun.symm.trans hrun')
  refine hfails (hiff.mpr ⟨0, fun _ _ => rfl, by decide +kernel, ?_, ?_⟩)
  · rintro _ ⟨⟩
    decide +kernel
  · rintro _ ⟨⟩
    decide +kernel

end PressureValve
