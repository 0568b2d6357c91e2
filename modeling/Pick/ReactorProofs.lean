import Pick.RunProofs

/-! # Greenlets and the G-code mutex (`klippy/reactor.py`, `klippy/gcode.py`)

G-code commands run in greenlets that hold the G-code mutex (`run_script`,
`run_command`).  A greenlet runs until it pauses in the reactor, which then resumes
any other.  Some requests run in greenlets that do not ask for the mutex. -/

namespace Reactor

open Coroutine List

variable {σ : Type}

/-! ## Model -/

/-- `ReactorMutex`; the greenlets have numbers. -/
structure Mutex where
  isLocked : Bool
  nextPending : Bool
  queue : List Nat
  deriving DecidableEq

/-- `__enter__` up to its end or its first pause: has the mutex been taken? -/
def Mutex.enter (mutex : Mutex) (i : Nat) : Mutex × Bool :=
  if mutex.isLocked = false then ({ mutex with isLocked := true }, true)
  else ({ mutex with queue := mutex.queue ++ [i] }, false)

/-- The loop of `__enter__` after a pause. -/
def Mutex.wake (mutex : Mutex) (i : Nat) : Mutex × Bool :=
  if mutex.nextPending = true ∧ mutex.queue.head? = some i then
    ({ mutex with nextPending := false, queue := mutex.queue.tail }, true)
  else (mutex, false)

/-- `__exit__`. -/
def Mutex.exit (mutex : Mutex) : Mutex :=
  match mutex.queue with
  | [] => { mutex with isLocked := false }
  | _ :: _ => { mutex with nextPending := true }

/-- A command holds the mutex while it runs, a request does not. -/
inductive Kind where
  | command
  | request
  deriving DecidableEq

/-- What a greenlet has to do. -/
structure Task (σ : Type) where
  kind : Kind
  body : Coro σ

/-- Where a greenlet is. -/
inductive Phase (σ : Type) where
  | new
  | queued
  | active (c : Coro σ)
  | finished

/-- Not started. -/
def Phase.isNew : Phase σ → Bool
  | .new => true
  | _ => false

/-- Done. -/
def Phase.isFinished : Phase σ → Bool
  | .finished => true
  | _ => false

theorem Phase.eq_finished {phase : Phase σ} (h : phase.isFinished = true) : phase = .finished := by
  cases phase with
  | finished => rfl
  | new | queued | active c => exact nomatch h

/-- The tasks with what they share. -/
structure Sys (σ : Type) where
  shared : σ
  mutex : Mutex
  phase : Nat → Phase σ

/-- Nothing has started. -/
def Sys.start (s : σ) : Sys σ := ⟨s, ⟨false, false, []⟩, fun _ => .new⟩

/-- A new phase of a task. -/
def Sys.setPhase (sys : Sys σ) (i : Nat) (phase : Phase σ) : Sys σ :=
  { sys with phase := Function.update sys.phase i phase }

section Model

variable (task : Nat → Task σ)

/-- Greenlet `i` acts and pauses, or ends and gives the mutex back. -/
def Sys.advance (sys : Sys σ) (i : Nat) : Coro σ → Sys σ
  | .done =>
    let sys := sys.setPhase i .finished
    match (task i).kind with
    | .command => { sys with mutex := sys.mutex.exit }
    | .request => sys
  | .seg act next =>
    { sys.setPhase i (.active (next sys.shared)) with
      shared := act sys.shared }

/-- The reactor resumes greenlet `i`. -/
def Sys.resume (sys : Sys σ) (i : Nat) : Sys σ :=
  match sys.phase i with
  | .new =>
    match (task i).kind with
    | .request => sys.advance task i (task i).body
    | .command =>
      match sys.mutex.enter i with
      | (mutex, true) => { sys with mutex := mutex }.advance task i (task i).body
      | (mutex, false) => { sys with mutex := mutex }.setPhase i .queued
  | .queued =>
    match sys.mutex.wake i with
    | (mutex, true) => { sys with mutex := mutex }.advance task i (task i).body
    | (_, false) => sys
  | .active c => sys.advance task i c
  | .finished => sys

/-- One greenlet after the other is resumed. -/
def Sys.run (sys : Sys σ) (is : List Nat) : Sys σ := is.foldl (fun sys i => sys.resume task i) sys

end Model

/-! ## One step -/

variable {c : Coro σ} {mutex : Mutex}

section Step

variable {task : Nat → Task σ} {sys : Sys σ} {i : Nat}

/-- Greenlet `i` goes on with `c`, and the mutex is now `mutex`. -/
inductive Goes (task : Nat → Task σ) (sys : Sys σ) (i : Nat) : Coro σ → Mutex → Prop where
  | on (c : Coro σ) (h : sys.phase i = .active c) : Goes task sys i c sys.mutex
  | request (hnew : sys.phase i = .new) (hkind : (task i).kind = .request) :
      Goes task sys i (task i).body sys.mutex
  | enter (hnew : sys.phase i = .new) (hkind : (task i).kind = .command)
      (hfree : sys.mutex.isLocked = false) :
      Goes task sys i (task i).body { sys.mutex with isLocked := true }
  | wake (hqueued : sys.phase i = .queued) (hpending : sys.mutex.nextPending = true) :
      Goes task sys i (task i).body
        { sys.mutex with nextPending := false, queue := sys.mutex.queue.tail }

/-- **WHAT A RESUMED GREENLET DOES**: nothing, it waits for the mutex, or it goes on. -/
theorem resume_cases (task : Nat → Task σ) (sys : Sys σ) (i : Nat) :
    sys.resume task i = sys ∨
    (sys.phase i = .new ∧ (task i).kind = .command ∧
      sys.resume task i = { sys with mutex := { sys.mutex with
        queue := sys.mutex.queue ++ [i] } }.setPhase i .queued) ∨
    ∃ c mutex, Goes task sys i c mutex ∧
      sys.resume task i = { sys with mutex := mutex }.advance task i c := by
  rw [Sys.resume]
  split
  · rename_i hnew
    split
    · rename_i hkind
      exact .inr (.inr ⟨_, _, .request hnew hkind, rfl⟩)
    · rename_i hkind
      rw [Mutex.enter]
      split
      · rename_i mutex h
        split at h
        · rename_i hfree
          obtain rfl := (Prod.mk.inj h).1
          exact .inr (.inr ⟨_, _, .enter hnew hkind hfree, rfl⟩)
        · exact nomatch (Prod.mk.inj h).2
      · rename_i mutex h
        split at h
        · exact nomatch (Prod.mk.inj h).2
        · obtain rfl := (Prod.mk.inj h).1
          exact .inr (.inl ⟨hnew, hkind, rfl⟩)
  · rename_i hqueued
    rw [Mutex.wake]
    split
    · rename_i mutex h
      split at h
      · rename_i hnext
        obtain rfl := (Prod.mk.inj h).1
        exact .inr (.inr ⟨_, _, .wake hqueued hnext.1, rfl⟩)
      · exact nomatch (Prod.mk.inj h).2
    · exact .inl rfl
  · rename_i c hactive
    exact .inr (.inr ⟨c, _, .on c hactive, rfl⟩)
  · exact .inl rfl

/-- Greenlet `i` is active or finished afterwards. -/
theorem advance_phase (sys : Sys σ) (c : Coro σ) :
    (sys.advance task i c).phase = Function.update sys.phase i
      (match c with
        | .done => .finished
        | .seg _ next => .active (next sys.shared)) := by
  cases c with
  | done =>
    rw [Sys.advance]
    cases (task i).kind with
    | command => rfl
    | request => rfl
  | seg act next => rfl

variable {j : Nat}

/-- The other greenlets stay where they are. -/
theorem advance_phase_ne (sys : Sys σ) (c : Coro σ) (hj : j ≠ i) :
    (sys.advance task i c).phase j = sys.phase j := by
  rw [advance_phase, Function.update_of_ne hj]

theorem advance_phase_self (sys : Sys σ) (c : Coro σ) :
    (sys.advance task i c).phase i
      = match c with
        | .done => .finished
        | .seg _ next => .active (next sys.shared) := by
  rw [advance_phase, Function.update_self]

/-- A greenlet that is active afterwards is `i`, or was active before. -/
theorem active_of_advance {sys : Sys σ} {d : Coro σ}
    (h : (sys.advance task i c).phase j = .active d) :
    (j = i ∧ c ≠ .done) ∨ (j ≠ i ∧ sys.phase j = .active d) := by
  by_cases hji : j = i
  · subst hji
    refine .inl ⟨rfl, ?_⟩
    rintro rfl
    rw [advance_phase_self] at h
    cases h
  · rw [advance_phase_ne _ _ hji] at h
    exact .inr ⟨hji, h⟩

/-- Nobody becomes active by waiting. -/
theorem active_of_queue {d : Coro σ} (h : (sys.setPhase i .queued).phase j = .active d) :
    sys.phase j = .active d := by
  have hall := (Function.forall_update_iff (a := i) (b := .queued) sys.phase fun j phase =>
    phase = .active d → sys.phase j = .active d).mpr ⟨nofun, fun _ _ => id⟩
  exact hall j h

/-- The mutex changes only if a command ends. -/
theorem advance_mutex (sys : Sys σ) (c : Coro σ) :
    (sys.advance task i c).mutex = sys.mutex ∨
    (c = .done ∧ (task i).kind = .command ∧ (sys.advance task i c).mutex = sys.mutex.exit) := by
  cases c with
  | done =>
    rw [Sys.advance]
    cases (task i).kind with
    | command => exact .inr ⟨rfl, rfl, rfl⟩
    | request => exact .inl rfl
  | seg act next => exact .inl rfl

/-- A greenlet that is not resumed stays where it is. -/
theorem resume_phase_ne (sys : Sys σ) (hj : j ≠ i) : (sys.resume task i).phase j = sys.phase j := by
  rcases resume_cases task sys i with
    hsame | ⟨-, -, hqueue⟩ | ⟨c, mutex, -, hadvance⟩
  · rw [hsame]
  · rw [hqueue]
    exact Function.update_of_ne hj ..
  · rw [hadvance]
    exact advance_phase_ne { sys with mutex := mutex } c hj

theorem run_phase_of_not_mem {is : List Nat} (hj : j ∉ is) :
    ∀ sys : Sys σ, (sys.run task is).phase j = sys.phase j := by
  induction is with
  | nil => exact fun sys => rfl
  | cons i is ih =>
    intro sys
    rw [mem_cons, not_or] at hj
    exact (ih hj.2 (sys.resume task i)).trans (resume_phase_ne sys hj.1)

/-! ## Commands exclude each other -/

/-- The command that is active holds the mutex, which has not been handed on. -/
structure Exclusive (task : Nat → Task σ) (sys : Sys σ) : Prop where
  holds : ∀ i c, sys.phase i = .active c → (task i).kind = .command →
    sys.mutex.isLocked = true ∧ sys.mutex.nextPending = false
  unique : ∀ i j c d, sys.phase i = .active c → sys.phase j = .active d →
    (task i).kind = .command → (task j).kind = .command → i = j
  pending : sys.mutex.nextPending = true → sys.mutex.isLocked = true
  queued : ∀ i, sys.phase i = .queued → (task i).kind = .command

theorem exclusive_start (task : Nat → Task σ) (s : σ) : Exclusive task (Sys.start s) :=
  ⟨nofun, nofun, nofun, nofun⟩

/-- A command that goes on has the mutex for itself. -/
theorem Exclusive.command (h : Exclusive task sys)
    (hgoes : Goes task sys i c mutex) (hkind : (task i).kind = .command) :
    mutex.isLocked = true ∧ mutex.nextPending = false ∧
      ∀ j d, j ≠ i → sys.phase j = .active d → (task j).kind ≠ .command := by
  cases hgoes with
  | on c hactive =>
    obtain ⟨hlocked, hnext⟩ := h.holds i c hactive hkind
    refine ⟨hlocked, hnext, fun j d hne hj hcommand => hne ?_⟩
    exact h.unique j i d c hj hactive hcommand hkind
  | request hnew hrequest => exact nomatch hkind.symm.trans hrequest
  | enter hnew _ hfree =>
    refine ⟨rfl, ?_, fun j d _ hj hcommand => ?_⟩
    · show sys.mutex.nextPending = false
      cases hnext : sys.mutex.nextPending with
      | false => rfl
      | true => exact nomatch hfree.symm.trans (h.pending hnext)
    · exact nomatch hfree.symm.trans (h.holds j d hj hcommand).1
  | wake hqueued hpending =>
    refine ⟨h.pending hpending, rfl, fun j d _ hj hcommand => ?_⟩
    exact nomatch hpending.symm.trans (h.holds j d hj hcommand).2

/-- A request that goes on leaves the mutex alone. -/
theorem Exclusive.request (h : Exclusive task sys)
    (hgoes : Goes task sys i c mutex) (hkind : (task i).kind = .request) : mutex = sys.mutex := by
  cases hgoes with
  | on c hactive => rfl
  | request hnew hrequest => rfl
  | enter hnew hcommand hfree => exact nomatch hkind.symm.trans hcommand
  | wake hqueued hpending => exact nomatch hkind.symm.trans (h.queued i hqueued)

/-- A mutex that is given back to nobody has not been handed on. -/
theorem exit_pending (hlocked : mutex.isLocked = true) (hnext : mutex.nextPending = false) :
    mutex.exit.nextPending = true → mutex.exit.isLocked = true := by
  rw [Mutex.exit]
  split
  · exact fun h => nomatch hnext.symm.trans h
  · exact fun _ => hlocked

/-- What goes on keeps commands apart. -/
theorem Exclusive.advance (h : Exclusive task sys) (hgoes : Goes task sys i c mutex) :
    Exclusive task ({ sys with mutex := mutex }.advance task i c) := by
  -- an active command is `i`, unless `i` is a request
  have hactive : ∀ {j d}, ({ sys with mutex := mutex }.advance task i c).phase j = .active d →
      (task j).kind = .command →
      (j = i ∧ c ≠ .done) ∨ ((task i).kind = .request ∧ sys.phase j = .active d) := by
    intro j d hj hcommand
    rcases active_of_advance hj with hself | ⟨hji, hold⟩
    · exact .inl hself
    · cases hkind : (task i).kind with
      | request => exact .inr ⟨rfl, hold⟩
      | command => exact absurd hcommand ((h.command hgoes hkind).2.2 j d hji hold)
  have hmutex : (task i).kind = .request →
      ({ sys with mutex := mutex }.advance task i c).mutex = sys.mutex := by
    intro hkind
    rcases advance_mutex { sys with mutex := mutex } c with
      hsame | ⟨-, hcommand, -⟩
    · exact hsame.trans (h.request hgoes hkind)
    · exact nomatch hkind.symm.trans hcommand
  refine ⟨fun j d hj hcommand => ?_, fun j k d e hj hk hcj hck => ?_, ?_, ?_⟩
  · rcases hactive hj hcommand with ⟨rfl, hc⟩ | ⟨hkind, hold⟩
    · obtain ⟨hlocked, hnext, -⟩ := h.command hgoes hcommand
      rw [(advance_mutex _ c).resolve_right fun hdone => hc hdone.1]
      exact ⟨hlocked, hnext⟩
    · rw [hmutex hkind]
      exact h.holds j d hold hcommand
  · rcases hactive hj hcj with ⟨rfl, -⟩ | ⟨hkind, hold⟩
    · rcases hactive hk hck with ⟨rfl, -⟩ | ⟨hkind, -⟩
      · rfl
      · exact nomatch hcj.symm.trans hkind
    · rcases hactive hk hck with ⟨rfl, -⟩ | ⟨-, hold'⟩
      · exact nomatch hck.symm.trans hkind
      · exact h.unique j k d e hold hold' hcj hck
  · cases hkind : (task i).kind with
    | request =>
      rw [hmutex hkind]
      exact h.pending
    | command =>
      obtain ⟨hlocked, hnext, -⟩ := h.command hgoes hkind
      rcases advance_mutex { sys with mutex := mutex } c with
        hsame | ⟨-, -, hexit⟩
      · rw [hsame]
        exact fun _ => hlocked
      · rw [hexit]
        exact exit_pending hlocked hnext
  · rw [advance_phase]
    refine (Function.forall_update_iff sys.phase fun j phase =>
      phase = .queued → (task j).kind = .command).mpr ⟨?_, fun j _ => h.queued j⟩
    cases c with
    | done | seg act next => exact nofun

/-- **ONE STEP KEEPS COMMANDS APART.** -/
theorem Exclusive.resume (h : Exclusive task sys) (i : Nat) :
    Exclusive task (sys.resume task i) := by
  rcases resume_cases task sys i with
    hsame | ⟨hnew, hkind, hqueue⟩ | ⟨c, mutex, hgoes, hadvance⟩
  · rw [hsame]
    exact h
  · rw [hqueue]
    refine ⟨fun j d hj hcommand => ?_, fun j k d e hj hk hcj hck => ?_, h.pending, fun j hj => ?_⟩
    · exact h.holds j d (active_of_queue hj) hcommand
    · exact h.unique j k d e (active_of_queue hj) (active_of_queue hk) hcj hck
    · by_cases hji : j = i
      · rw [hji]
        exact hkind
      · refine h.queued j (Eq.trans ?_ hj)
        exact (Function.update_of_ne hji ..).symm
  · rw [hadvance]
    exact h.advance hgoes

/-- **COMMANDS EXCLUDE EACH OTHER** in every interleaving. -/
theorem commands_exclusive (task : Nat → Task σ) (s : σ) (is : List Nat) :
    Exclusive task ((Sys.start s).run task is) :=
  List.foldlRecOn (motive := Exclusive task) is _ (exclusive_start task s) fun _ h i _ => h.resume i

end Step

/-! ## One after the other -/

section Serial

/-- A request starts while the mutex is free, and whoever starts while the mutex
    is free starts alone. -/
def Orderly (task : Nat → Task σ) (sys : Sys σ) (i : Nat) : Prop :=
  sys.phase i = .new → ((task i).kind = .request → sys.mutex.isLocked = false) ∧
    (sys.mutex.isLocked = false → ∀ j c, sys.phase j ≠ .active c)

/-- The greenlets that have finished have run in `order`, one after the other,
    and the one that is active continues this. -/
structure History (effect : Nat → σ → σ) (s₀ : σ) (sys : Sys σ) (order : List Nat) : Prop where
  nodup : order.Nodup
  finished : ∀ i, i ∈ order ↔ sys.phase i = .finished
  active : ∀ i c, sys.phase i = .active c → c.run sys.shared = effect i (serial effect order s₀)
  idle : (∀ i c, sys.phase i ≠ .active c) → sys.shared = serial effect order s₀

/-- At most one greenlet is active, and a request only while the mutex is free. -/
structure Serial (task : Nat → Task σ) (effect : Nat → σ → σ) (s₀ : σ) (sys : Sys σ) : Prop where
  alone : ∀ i j c d, sys.phase i = .active c → sys.phase j = .active d → i = j
  request : ∀ i c, sys.phase i = .active c → (task i).kind = .request → sys.mutex.isLocked = false
  history : ∃ order, History effect s₀ sys order

variable {task : Nat → Task σ} {effect : Nat → σ → σ} {s₀ : σ} {sys : Sys σ}
  {i : Nat}

theorem serial_start (task : Nat → Task σ) (effect : Nat → σ → σ) (s₀ : σ) :
    Serial task effect s₀ (Sys.start s₀) :=
  ⟨nofun, nofun, [], nodup_nil, fun _ => ⟨nofun, nofun⟩, nofun, fun _ => rfl⟩

variable (hruns : ∀ i s, (task i).body.run s = effect i s)

include hruns in
/-- Whoever goes on goes on alone, and has done its part of what it does. -/
theorem Serial.goes (h : Serial task effect s₀ sys) (hex : Exclusive task sys)
    (horderly : Orderly task sys i) (hgoes : Goes task sys i c mutex) :
    (∀ j d, j ≠ i → sys.phase j ≠ .active d) ∧
    ((task i).kind = .request → sys.mutex.isLocked = false) ∧
    ∃ order, History effect s₀ sys order ∧ i ∉ order ∧
      c.run sys.shared = effect i (serial effect order s₀) := by
  obtain ⟨order, hist⟩ := h.history
  -- a greenlet that starts finds what the others have left
  have hstart : (∀ j d, sys.phase j ≠ .active d) → sys.phase i ≠ .finished →
      ∃ order, History effect s₀ sys order ∧ i ∉ order ∧
        (task i).body.run sys.shared = effect i (serial effect order s₀) := by
    intro hidle hunfinished
    refine ⟨order, hist, fun hmem => hunfinished ((hist.finished i).mp hmem), ?_⟩
    rw [hruns, hist.idle hidle]
  cases hgoes with
  | on c hactive =>
    refine ⟨fun j d hne hj => hne (h.alone j i d c hj hactive),
      h.request i c hactive, order, hist, fun hmem => ?_,
      hist.active i c hactive⟩
    exact nomatch hactive.symm.trans ((hist.finished i).mp hmem)
  | request hnew hkind =>
    obtain ⟨hfree, hidle⟩ := horderly hnew
    refine ⟨fun j d _ => hidle (hfree hkind) j d, hfree, hstart (hidle (hfree hkind)) fun he => ?_⟩
    exact nomatch hnew.symm.trans he
  | enter hnew hkind hfree =>
    have hidle := (horderly hnew).2 hfree
    refine ⟨fun j d _ => hidle j d, fun _ => hfree, hstart hidle fun he => ?_⟩
    exact nomatch hnew.symm.trans he
  | wake hqueued hpending =>
    have hkind := hex.queued i hqueued
    have hidle : ∀ j d, sys.phase j ≠ .active d := by
      intro j d hj
      cases hj' : (task j).kind with
      | command => exact nomatch hpending.symm.trans (hex.holds j d hj hj').2
      | request =>
        have hlocked := hex.pending hpending
        exact nomatch hlocked.symm.trans (h.request j d hj hj')
    refine ⟨fun j d _ => hidle j d, fun hrequest => ?_, hstart hidle fun he => ?_⟩
    · exact nomatch hkind.symm.trans hrequest
    · exact nomatch hqueued.symm.trans he

/-- The history after greenlet `i` has gone on alone. -/
theorem History.advance {order : List Nat} (h : History effect s₀ sys order) (mutex : Mutex)
    (hothers : ∀ j d, j ≠ i → sys.phase j ≠ .active d) (hi : i ∉ order)
    (hrun : c.run sys.shared = effect i (serial effect order s₀)) :
    ∃ order', History effect s₀ ({ sys with mutex := mutex }.advance task i c) order' := by
  cases c with
  | done =>
    refine ⟨order ++ [i], ?_, ?_, ?_, fun _ => ?_⟩
    · rw [← concat_eq_append]
      exact Nodup.concat hi h.nodup
    · rw [advance_phase]
      refine (Function.forall_update_iff sys.phase fun j phase =>
        j ∈ order ++ [i] ↔ phase = .finished).mpr ⟨iff_of_true (by simp) rfl, fun j hj => ?_⟩
      rw [mem_append, mem_singleton, or_iff_left hj]
      exact h.finished j
    · rw [advance_phase]
      exact (Function.forall_update_iff sys.phase fun j phase => ∀ d, phase = .active d →
        d.run _ = effect j (serial effect _ s₀)).mpr
          ⟨nofun, fun j hj d hd => absurd hd (hothers j d hj)⟩
    · have hshared : ({ sys with mutex := mutex }.advance task i
          Coro.done).shared = sys.shared := by
        rw [Sys.advance]
        cases (task i).kind with
        | command => rfl
        | request => rfl
      rw [hshared, serial_concat, ← hrun]
      rfl
  | seg act next =>
    refine ⟨order, h.nodup, ?_, ?_, fun hidle => ?_⟩
    · exact (Function.forall_update_iff sys.phase fun j phase =>
        j ∈ order ↔ phase = .finished).mpr ⟨iff_of_false hi nofun, fun j _ => h.finished j⟩
    · refine (Function.forall_update_iff sys.phase fun j phase => ∀ d, phase = .active d →
        d.run _ = effect j (serial effect _ s₀)).mpr
        ⟨?_, fun j hj d hd => absurd hd (hothers j d hj)⟩
      rintro d ⟨⟩
      exact hrun
    · exact absurd (advance_phase_self _ _) (hidle i _)

include hruns in
/-- **ONE ORDERLY STEP** leaves everybody one after the other. -/
theorem Serial.resume (h : Serial task effect s₀ sys) (hex : Exclusive task sys)
    (horderly : Orderly task sys i) : Serial task effect s₀ (sys.resume task i) := by
  rcases resume_cases task sys i with
    hsame | ⟨hnew, hkind, hqueue⟩ | ⟨c, mutex, hgoes, hadvance⟩
  · rw [hsame]
    exact h
  · rw [hqueue]
    obtain ⟨order, hist⟩ := h.history
    refine ⟨fun j k d e hj hk => ?_, fun j d hj hrequest => ?_, order,
      hist.nodup, ?_, fun j d hj => ?_, fun hidle => ?_⟩
    · exact h.alone j k d e (active_of_queue hj) (active_of_queue hk)
    · exact h.request j d (active_of_queue hj) hrequest
    · refine (Function.forall_update_iff sys.phase fun j phase => j ∈ order ↔ phase = .finished).mpr
        ⟨iff_of_false (fun hi => ?_) nofun, fun j _ => hist.finished j⟩
      exact nomatch hnew.symm.trans ((hist.finished i).mp hi)
    · exact hist.active j d (active_of_queue hj)
    · refine hist.idle fun j d hj => ?_
      have hji : j ≠ i := by
        rintro rfl
        exact nomatch hnew.symm.trans hj
      exact hidle j d ((Function.update_of_ne hji ..).trans hj)
  · rw [hadvance]
    obtain ⟨hothers, hfree, order, hist, hi, hrun⟩ := h.goes hruns hex horderly hgoes
    -- nobody but `i` can be active
    have honly : ∀ j d, ({ sys with mutex := mutex }.advance task i c).phase j = .active d →
        j = i ∧ c ≠ .done := by
      intro j d hj
      rcases active_of_advance hj with hself | ⟨hji, hold⟩
      · exact hself
      · exact absurd hold (hothers j d hji)
    refine ⟨fun j k d e hj hk => ?_, fun j d hj hrequest => ?_, hist.advance mutex hothers hi hrun⟩
    · exact (honly j d hj).1.trans (honly k e hk).1.symm
    · obtain ⟨rfl, hc⟩ := honly j d hj
      rcases advance_mutex { sys with mutex := mutex } c with
        hsame | ⟨hdone, -, -⟩
      · rw [hsame]
        show mutex.isLocked = false
        rw [hex.request hgoes hrequest]
        exact hfree hrequest
      · exact absurd hdone hc

/-- While the mutex is locked a request does nothing. -/
theorem Serial.resume_of_locked (h : Serial task effect s₀ sys)
    (hex : Exclusive task sys) (horderly : Orderly task sys i)
    (hkind : (task i).kind = .request) (hlocked : sys.mutex.isLocked = true) :
    sys.resume task i = sys := by
  rw [Sys.resume]
  split
  · rename_i hnew
    exact nomatch hlocked.symm.trans ((horderly hnew).1 hkind)
  · rename_i hqueued
    exact nomatch hkind.symm.trans (hex.queued i hqueued)
  · rename_i c hactive
    exact nomatch hlocked.symm.trans (h.request i c hactive hkind)
  · rfl

/-- Every step of a run is orderly. -/
def AllOrderly (task : Nat → Task σ) : Sys σ → List Nat → Prop
  | _, [] => True
  | sys, i :: is => Orderly task sys i ∧ AllOrderly task (sys.resume task i) is

include hruns in
/-- **AN ORDERLY RUN** leaves everybody one after the other, and no request acts
    while the mutex is locked. -/
theorem Serial.run {is : List Nat} : ∀ {sys : Sys σ},
    Serial task effect s₀ sys → Exclusive task sys → AllOrderly task sys is →
    Serial task effect s₀ (sys.run task is) ∧
    ∀ pre i post, is = pre ++ i :: post → (task i).kind = .request →
      (sys.run task pre).mutex.isLocked = true →
      (sys.run task (pre ++ [i])).shared = (sys.run task pre).shared := by
  induction is with
  | nil =>
    intro sys h _ _
    refine ⟨h, fun pre i post he => ?_⟩
    exact nomatch append_eq_nil_iff.mp he.symm
  | cons k is ih =>
    intro sys h hex horderly
    obtain ⟨hserial, hlocked⟩ := ih (h.resume hruns hex horderly.1) (hex.resume k) horderly.2
    refine ⟨hserial, fun pre i post he hkind hlock => ?_⟩
    cases pre with
    | nil =>
      cases he
      show (sys.resume task k).shared = sys.shared
      rw [h.resume_of_locked hex horderly.1 hkind hlock]
    | cons j pre =>
      obtain ⟨rfl, hrest⟩ := List.cons.inj he
      exact hlocked pre i post hrest hkind hlock

end Serial

end Reactor
