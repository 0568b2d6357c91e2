import Pick.PnpPositionProofs
import Pick.ReactorProofs

/-! # Scripts and web requests side by side

`run_script` and `run_command` (`klippy/gcode.py`) process the lines of a
script with the G-code mutex locked.  `_process_request`
(`klippy/webhooks.py`) calls `_webhooks_jog`, `_webhooks_move` and
`_webhooks_tool` of the manager, and none of them asks for the mutex.

Where these pause is left open: a greenlet's coroutine may be any that does
what the script or the request does when nothing comes between. -/

namespace Pnp

open Coroutine GcodeMove Reactor

variable {K : Type} [Field K] [LinearOrder K]

/-! ## Jobs -/

/-- A line of a script. -/
abbrev Line (K : Type) := Check K × { r : Request K // r.isCommand = true }

/-- One line of `_process_commands`, and whether the next one follows.  An error resets the last
    position, and is raised unless it has been acknowledged. -/
def Machine.runLine (needAck : Bool) (m : Machine K) (line : Line K) : Machine K × Bool :=
  match m.handle line.1 line.2.1 with
  | (m, none) => (m, true)
  | (m, some (.command _)) => (m.resetLastPosition, needAck)
  | (m, some .internal) => (m, false)

/-- `_process_commands`. -/
def Machine.processCommands (needAck : Bool) (m : Machine K) :
    List (Line K) → Machine K
  | [] => m
  | line :: lines =>
    if (m.runLine needAck line).2 then
      (m.runLine needAck line).1.processCommands needAck lines
    else (m.runLine needAck line).1

/-- What a greenlet runs: `run_script` or `run_command`, or a web request of the manager. -/
inductive Job (K : Type) where
  | script (needAck : Bool) (lines : List (Line K))
  | web (check : Check K) (r : { r : Request K // r.isCommand = false })

/-- A script is a command. -/
def Job.kind : Job K → Kind
  | .script _ _ => .command
  | .web _ _ => .request

/-- What a job does when nothing comes between. -/
def Job.effect (m : Machine K) : Job K → Machine K
  | .script needAck lines => m.processCommands needAck lines
  | .web check r => (m.handle check r.1).1

/-- The greenlets of these jobs with these coroutines. -/
def tasks (jobs : Nat → Job K) (bodies : Nat → Coro (Machine K)) (i : Nat) :
    Reactor.Task (Machine K) :=
  ⟨(jobs i).kind, bodies i⟩

/-- A script that pauses between its lines, as an `M400` there makes it. -/
def scriptBody (needAck : Bool) : List (Line K) → Coro (Machine K)
  | [] => .done
  | line :: lines =>
    .seg (fun m => (m.runLine needAck line).1) fun m =>
      if (m.runLine needAck line).2 then scriptBody needAck lines else .done

/-- A job that pauses between its lines. -/
def Job.body : Job K → Coro (Machine K)
  | .script needAck lines => scriptBody needAck lines
  | .web check r => .seg (fun m => (m.handle check r.1).1) fun _ => .done

theorem run_scriptBody (needAck : Bool) (lines : List (Line K)) :
    ∀ m : Machine K, (scriptBody needAck lines).run m = m.processCommands needAck lines := by
  induction lines with
  | nil => exact fun m => rfl
  | cons line lines ih =>
    intro m
    rw [scriptBody, Coro.run, Machine.processCommands]
    split
    · exact ih _
    · rfl

theorem Job.run_body (job : Job K) (m : Machine K) : job.body.run m = job.effect m := by
  cases job with
  | script needAck lines => exact run_scriptBody needAck lines m
  | web check r => rfl

/-! ## Interleavings -/

/-- **REQUESTS ARE SERIALISED** in every interleaving in which a web request starts only while
    the G-code mutex is free, and then alone: none does anything while the mutex is held, and
    the jobs that have finished have been done one at a time. -/
theorem requests_serialised (jobs : Nat → Job K) (bodies : Nat → Coro (Machine K))
    (hruns : ∀ i m, (bodies i).run m = (jobs i).effect m) (m₀ : Machine K) {is : List Nat}
    (horderly : AllOrderly (tasks jobs bodies) (Sys.start m₀) is) :
    (∀ pre i post, is = pre ++ i :: post → (jobs i).kind = .request →
      ((Sys.start m₀).run (tasks jobs bodies) pre).mutex.isLocked = true →
      ((Sys.start m₀).run (tasks jobs bodies) (pre ++ [i])).shared
        = ((Sys.start m₀).run (tasks jobs bodies) pre).shared) ∧
    ((∀ i c, ((Sys.start m₀).run (tasks jobs bodies) is).phase i ≠ .active c) →
      ∃ order : List Nat, order.Nodup ∧
        (∀ i, i ∈ order ↔ ((Sys.start m₀).run (tasks jobs bodies) is).phase i = .finished) ∧
        ((Sys.start m₀).run (tasks jobs bodies) is).shared
          = serial (fun i m => (jobs i).effect m) order m₀) := by
  have hstart := serial_start (tasks jobs bodies) (fun i m => (jobs i).effect m) m₀
  obtain ⟨hserial, hlocked⟩ := hstart.run hruns (exclusive_start _ m₀) horderly
  refine ⟨hlocked, fun hidle => ?_⟩
  obtain ⟨order, hist⟩ := hserial.history
  exact ⟨order, hist.nodup, hist.finished, hist.idle hidle⟩

/-! ## A script and a jog -/

/-- The command `G1` to this `X`. -/
def g1X (text : String) (x : ℚ) : Line ℚ :=
  (noCheck, ⟨.gcode (.g1 ⟨"G1 X" ++ text,
    traditionalParams "G" (numberArg "1" 1) [("X", numberArg text x)]⟩), rfl⟩)

/-- Greenlet 0 runs a script of two moves, any other one jogs by 5 mm. -/
def scriptAndJog (i : Nat) : Job ℚ :=
  if i = 0 then .script false [g1X "10" 10, g1X "20" 20]
  else .web noCheck ⟨.jog ⟨5, 0, 0, 0, 0⟩ none true, rfl⟩

/-- The greenlets of `is` are resumed in turn. -/
def resumed (is : List Nat) : Sys (Machine ℚ) :=
  (Sys.start originMachine).run (tasks scriptAndJog fun i => (scriptAndJog i).body) is

theorem resumed_other {is : List Nat} {j : Nat} (hj : j ∉ is) : (resumed is).phase j = .new :=
  run_phase_of_not_mem hj _

/-- If greenlets 0 and 1 have finished, they are all that have, and nothing is under way. -/
theorem resumed_finished (is : List Nat) (honly : ∀ j ∈ is, j < 2)
    (h₀ : ((resumed is).phase 0).isFinished = true)
    (h₁ : ((resumed is).phase 1).isFinished = true) (i : Nat) :
    (i ∈ [0, 1] ↔ (resumed is).phase i = .finished) ∧ ∀ c, (resumed is).phase i ≠ .active c := by
  match i with
  | 0 =>
    rw [Phase.eq_finished h₀]
    exact ⟨iff_of_true (by decide) rfl, nofun⟩
  | 1 =>
    rw [Phase.eq_finished h₁]
    exact ⟨iff_of_true (by decide) rfl, nofun⟩
  | i + 2 =>
    rw [resumed_other fun hmem => by have := honly _ hmem; omega]
    refine ⟨iff_of_false ?_ nofun, nofun⟩
    rw [List.mem_pair]
    omega

theorem requests_serialised_in_turn :
    ∃ order : List Nat, order.Nodup ∧
      (∀ i, i ∈ order ↔ (resumed [0, 0, 0, 1, 1]).phase i = .finished) ∧
      (resumed [0, 0, 0, 1, 1]).shared
        = serial (fun i m => (scriptAndJog i).effect m) order originMachine := by
  have horderly : AllOrderly (tasks scriptAndJog fun i => (scriptAndJog i).body)
      (Sys.start originMachine) [0, 0, 0, 1, 1] := by
    refine ⟨?_, ?_, ?_, ?_, ?_, trivial⟩
    · exact fun _ => ⟨fun _ => rfl, nofun⟩
    · exact fun h => absurd (congrArg Phase.isNew h) (by decide +kernel)
    · exact fun h => absurd (congrArg Phase.isNew h) (by decide +kernel)
    · -- the script has ended and has given the mutex back
      refine fun _ => ⟨fun _ => by decide +kernel, fun _ j c h => ?_⟩
      replace h : (resumed [0, 0, 0]).phase j = .active c := h
      by_cases hj : j = 0
      · have hdone : (resumed [0, 0, 0]).phase 0 = .finished :=
          Phase.eq_finished (by decide +kernel)
        rw [hj, hdone] at h
        cases h
      · rw [resumed_other (by simpa using hj)] at h
        cases h
    · exact fun h => absurd (congrArg Phase.isNew h) (by decide +kernel)
  refine (requests_serialised scriptAndJog (fun i => (scriptAndJog i).body)
    (fun i m => (scriptAndJog i).run_body m) originMachine horderly).2 fun i => ?_
  exact (resumed_finished [0, 0, 0, 1, 1] (by decide) (by decide +kernel) (by decide +kernel) i).2

/-- While the script waits between its moves, holding the mutex, the jog moves
    the tool head; no order of the two gives these moves. -/
theorem jog_splits_script :
    (resumed [0]).mutex.isLocked = true ∧
    (resumed [0, 1]).shared.printer.moves ≠ (resumed [0]).shared.printer.moves ∧
    (∀ i c, (resumed [0, 1, 0, 0, 1]).phase i ≠ .active c) ∧ ∀ order : List Nat, order.Nodup →
      (∀ i, i ∈ order ↔ (resumed [0, 1, 0, 0, 1]).phase i = .finished) →
      (resumed [0, 1, 0, 0, 1]).shared.printer.moves
        ≠ (serial (fun i m => (scriptAndJog i).effect m) order originMachine).printer.moves := by
  have hend := resumed_finished [0, 1, 0, 0, 1] (by decide) (by decide +kernel) (by decide +kernel)
  refine ⟨by decide +kernel, by decide +kernel, fun i => (hend i).2, ?_⟩
  intro order hnodup hfinished
  have hperm : order.Perm [0, 1] :=
    (List.perm_ext_iff_of_nodup hnodup (by decide)).mpr fun i => (hfinished i).trans (hend i).1.symm
  rcases List.perm_pair.mp hperm with rfl | rfl
  · decide +kernel
  · decide +kernel

end Pnp
