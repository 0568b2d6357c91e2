import Pick.MoveQueueProofs
import Pick.StepperPositionProofs
import Pick.DigitalOutProofs
import Pick.PwmOutProofs

/-! # The objects that queue moves

Steppers, digital outputs and PWM outputs take their moves from the same nodes.  A
handler changes the object, as in the modules of `src/stepper.c`, `src/gpiocmds.c`
and `src/pwmcmds.c`, and hands nodes over between the free list, its queue and
itself.  Interrupts come between `move_alloc` and the rest of a command, and a
shutdown comes anywhere.

A shutdown rebuilds the free list from all nodes, and drops the queues without
freeing them; the functions that do so are run in any order. -/

namespace Basecmd

open Chain Function List

/-! ## Objects -/

/-- The objects with a move queue; `armed` says if the timer of a stepper is in the
    scheduler's list. -/
inductive Object where
  | stepper (s : Stepper.State) (armed : Bool)
  | digitalOut (s : DigitalOut.State)
  | pwmOut (s : PwmOut.State)

/-- The moves in the queue of an object. -/
def Object.pending : Object → Nat
  | .stepper s _ => s.mq.length
  | .digitalOut s => s.mq.length
  | .pwmOut s => s.mq.length

/-- The timer is in the list. -/
def Object.armed : Object → Bool
  | .stepper _ armed => armed
  | .digitalOut s => s.armed
  | .pwmOut s => s.armed

/-- The object of an oid, with its `struct move_queue_head`. -/
structure Slot where
  obj : Object
  head : Head

/-! ## Nodes in handlers -/

/-- What a handler does with nodes; `n` is the one it has from `move_alloc`. -/
inductive Transfer where
  | keep
  | push (n : Nat)
  | free (n : Nat)
  | load
  | pop
  | pushLoad (n : Nat)
  | empty
  deriving DecidableEq

/-- `move_queue_pop`, then `move_free`. -/
def popFree (h : Head) (p : Pool) : Option (Head × Pool) :=
  (moveQueuePop h p).map fun r => (r.2, moveFree r.1 p)

/-- The same behind a check with `move_queue_empty`. -/
def loadNode (h : Head) (p : Pool) : Option (Head × Pool) :=
  if h.first = none then some (h, p) else popFree h p

/-- What becomes of the nodes. -/
def Transfer.run (h : Head) (p : Pool) : Transfer → Option (Head × Pool)
  | .keep => some (h, p)
  | .push n => (moveQueuePush n h p).map Prod.snd
  | .free n => some (h, moveFree n p)
  | .load => loadNode h p
  | .pop => popFree h p
  | .pushLoad n => (moveQueuePush n h p).bind fun r => loadNode r.2.1 r.2.2
  | .empty => freeQueue p.moveCount h p

/-! ## Timers -/

variable (b : Stepper.Board)

/-- Does this step event call `stepper_load_next`? -/
def stepLoads (s : Stepper.State) : Bool :=
  match s.path b with
  | .edge => s.count - 1 = 0
  | .avr => s.count.toUInt16 - 1 = 0
  | .full => ¬ ((s.count - 1) &&& 1 ≠ 0 ∧ ¬ s.singleSched) ∧ s.count - 1 = 0

/-- The function of the object's timer, and whether it shuts down; `none` stands for a
    null pointer that is followed. -/
def Object.timer (reads : Stepper.Reads) : Object → Option (Object × Bool)
  | .stepper s _ =>
    match s.event b reads with
    | .ok (sched, s') => some (.stepper s' (sched = .reschedule), false)
    | .error (_, s') => some (.stepper s' false, true)
  | .digitalOut s =>
    match s.func with
    | .toggle => some (.digitalOut (DigitalOut.digitalToggleEvent s), false)
    | .load =>
      match DigitalOut.digitalLoadEvent s with
      | .ok s' => some (.digitalOut s', false)
      | .error _ => some (.digitalOut s, true)
  | .pwmOut s =>
    match s.func with
    | .endEvent => some (.pwmOut s, true)
    | .event =>
      match PwmOut.pwmEvent s with
      | .ok s' => some (.pwmOut s', false)
      | .error (.shutdown _) => some (.pwmOut s, true)
      | .error .fault => none

/-- The transfer of a timer event. -/
def Object.timerTransfer : Object → Transfer
  | .stepper s _ => if stepLoads b s then .load else .keep
  | .digitalOut s => if s.func = .load then .load else .keep
  | .pwmOut s => if s.func = .event then .pop else .keep

/-! ## Commands -/

/-- The commands that queue a move. -/
inductive Request where
  | queueStep (interval count add : UInt32)
  | queueDigitalOut (time onTicks : UInt32)
  | queuePwmOut (clock value : UInt32)

/-- The check of `oid_lookup`. -/
def Request.fits : Request → Object → Bool
  | .queueStep .., .stepper .. => true
  | .queueDigitalOut .., .digitalOut _ => true
  | .queuePwmOut .., .pwmOut _ => true
  | _, _ => false

/-- What the command makes of the object, and whether it shuts down. -/
def Request.turn : Request → Object → Option (Object × Bool)
  | .queueStep interval count add, .stepper s armed =>
    match Stepper.commandQueueStep b interval count add s with
    | .ok (added, s') => some (.stepper s' (armed || added), false)
    | .error (_, s') => some (.stepper s' armed, true)
  | .queueDigitalOut time onTicks, .digitalOut s =>
    match DigitalOut.commandQueueDigitalOut time onTicks s with
    | .ok s' => some (.digitalOut s', false)
    | .error _ => some (.digitalOut s, true)
  | .queuePwmOut clock value, .pwmOut s =>
    match PwmOut.commandQueuePwmOut clock value s with
    | .ok s' => some (.pwmOut s', false)
    | .error (.shutdown _) => some (.pwmOut s, true)
    | .error .fault => none
  | _, obj => some (obj, true)

/-- Where the command puts its node. -/
def Request.transfer (n : Nat) : Request → Object → Transfer
  | .queueStep _ count _, .stepper s _ =>
    if count.toUInt16 = 0 then .keep
    else if s.count ≠ 0 then .push n
    else if s.needReset then .free n
    else .pushLoad n
  | _, _ => .push n

/-- The commands that change an object with a queue but need no node; `now` is what the
    timer reads. -/
inductive Setting where
  | setNextStepDir (dir : UInt32)
  | resetStepClock (waketime : UInt32)
  | setDigitalOutPwmCycle (cycleTicks : UInt32)
  | updateDigitalOut (value now : UInt32)

/-- They shut down for an object of another type, too. -/
def Setting.turn : Setting → Object → Object × Bool
  | .setNextStepDir dir, .stepper s armed =>
    (.stepper (Stepper.commandSetNextStepDir dir s) armed, false)
  | .resetStepClock waketime, .stepper s armed =>
    match Stepper.commandResetStepClock waketime s with
    | .ok s' => (.stepper s' armed, false)
    | .error (_, s') => (.stepper s' armed, true)
  | .setDigitalOutPwmCycle cycleTicks, .digitalOut s =>
    match DigitalOut.commandSetDigitalOutPwmCycle cycleTicks s with
    | .ok s' => (.digitalOut s', false)
    | .error _ => (.digitalOut s, true)
  | .updateDigitalOut value now, .digitalOut s =>
    match DigitalOut.commandUpdateDigitalOut value now s with
    | .ok s' => (.digitalOut s', false)
    | .error _ => (.digitalOut s, true)
  | _, obj => (obj, true)

/-! ## Shutdown -/

/-- The functions with `DECL_SHUTDOWN` that have to do with moves. -/
inductive ShutdownFunc where
  | moveReset
  | stepperShutdown
  | digitalOutShutdown
  | pwmShutdown
  deriving DecidableEq

/-- What they do to an object; in `stepper_shutdown` the loop of `stepper_stop` finds
    the queue cleared. -/
def ShutdownFunc.slot : ShutdownFunc → Slot → Slot
  | .stepperShutdown, ⟨.stepper s _, h⟩ =>
    ⟨.stepper (Stepper.stepperShutdown b s) false, moveQueueClear h⟩
  | .digitalOutShutdown, ⟨.digitalOut s, h⟩ =>
    ⟨.digitalOut (DigitalOut.digitalOutShutdown s), moveQueueClear h⟩
  | .pwmShutdown, ⟨.pwmOut s, h⟩ => ⟨.pwmOut (PwmOut.pwmShutdown s), moveQueueClear h⟩
  | _, slot => slot

/-- What a shutdown function does to the pool. -/
def ShutdownFunc.pool : ShutdownFunc → Pool → Pool
  | .moveReset, p => Basecmd.moveReset p
  | _, p => p

/-- `sched_timer_reset` empties the list of timers. -/
def Object.disarm : Object → Object
  | .stepper s _ => .stepper s false
  | .digitalOut s => .digitalOut { s with armed := false }
  | .pwmOut s => .pwmOut { s with armed := false }

/-! ## The system -/

/-- A command handler that has its node and is not done. -/
structure Held where
  node : Nat
  oid : Nat
  request : Request

/-- The firmware's move queues. -/
structure Sys where
  pool : Pool
  slots : Nat → Option Slot
  held : Option Held
  shut : Bool

/-- The commands that create the objects. -/
inductive Config where
  | stepper (invertStep : Int8) (stepPulseTicks : UInt32)
  | digitalOut (value defaultValue maxDuration : UInt32)
  | pwmOut (value defaultValue maxDuration : UInt32)

/-- The object of a `config_` command. -/
def Config.object : Config → Object
  | .stepper invertStep stepPulseTicks =>
    .stepper (Stepper.commandConfigStepper b invertStep stepPulseTicks) false
  | .digitalOut value defaultValue maxDuration =>
    .digitalOut (DigitalOut.commandConfigDigitalOut value defaultValue maxDuration)
  | .pwmOut value defaultValue maxDuration =>
    .pwmOut (PwmOut.commandConfigPwmOut value defaultValue maxDuration)

/-- Behind `move_finalize`. -/
def Sys.start (moveCount : Nat) (configs : Nat → Option Config) : Sys where
  pool := moveReset ⟨fun _ => none, none, moveCount⟩
  slots oid := (configs oid).map fun c => ⟨c.object b, moveQueueSetup⟩
  held := none
  shut := false

/-- `sched_timer_reset`. -/
def Sys.schedTimerReset (sys : Sys) : Sys :=
  { sys with slots := fun oid => (sys.slots oid).map fun slot =>
      { slot with obj := slot.obj.disarm } }

/-- One shutdown function. -/
def Sys.runFunc (sys : Sys) (f : ShutdownFunc) : Sys :=
  { sys with pool := f.pool sys.pool, slots := fun oid => (sys.slots oid).map (f.slot b) }

variable (order : List ShutdownFunc)

/-- `run_shutdown`; it leaves the handler that was running. -/
def Sys.shutdown (sys : Sys) : Sys :=
  { order.foldl (Sys.runFunc b) sys.schedTimerReset with held := none, shut := true }

/-- A handler for the object of `oid`, on the nodes and on the object. -/
def Sys.settle (sys : Sys) (oid : Nat) (slot : Slot) (t : Transfer)
    (turn : Option (Object × Bool)) : Option Sys :=
  (t.run slot.head sys.pool).bind fun r => turn.map fun turn =>
    let sys := { sys with
      pool := r.2, slots := update sys.slots oid (some ⟨turn.1, r.1⟩) }
    if turn.2 then sys.shutdown b order else sys

/-- The events. -/
inductive Op where
  | start (oid : Nat) (request : Request)
  | finish
  | set (oid : Nat) (setting : Setting)
  | timer (oid : Nat) (reads : Stepper.Reads)
  | trigger (oid : Nat)
  | shutdown
  | clearShutdown

/-- One event.  `start` is a handler up to `move_alloc` and `finish` the rest; a command runs
    when the one before is done, and not in the shutdown state.  A shutdown by other code is an
    event as well. -/
def Sys.step (sys : Sys) : Op → Option Sys
  | .start oid request =>
    if sys.held.isSome || sys.shut then some sys
    else match sys.slots oid with
      | none => some (sys.shutdown b order)
      | some slot =>
        if request.fits slot.obj then
          match moveAlloc sys.pool with
          | none => some (sys.shutdown b order)
          | some (n, p) => some { sys with pool := p, held := some ⟨n, oid, request⟩ }
        else some (sys.shutdown b order)
  | .finish =>
    match sys.held with
    | none => some sys
    | some ⟨n, oid, request⟩ =>
      match sys.slots oid with
      | none => some (sys.shutdown b order)
      | some slot =>
        { sys with held := none }.settle b order oid slot
          (request.transfer n slot.obj) (request.turn b slot.obj)
  | .set oid setting =>
    if sys.held.isSome || sys.shut then some sys
    else match sys.slots oid with
      | none => some (sys.shutdown b order)
      | some slot => sys.settle b order oid slot .keep (some (setting.turn slot.obj))
  | .timer oid reads =>
    match sys.slots oid with
    | none => some sys
    | some slot =>
      if slot.obj.armed then
        sys.settle b order oid slot (slot.obj.timerTransfer b) (slot.obj.timer b reads)
      else some sys
  | .trigger oid =>
    match sys.slots oid with
    | some ⟨.stepper s armed, h⟩ =>
      sys.settle b order oid ⟨.stepper s armed, h⟩ .empty
        (some (.stepper (Stepper.stepperStop b s) false, false))
    | _ => some sys
  | .shutdown => some (sys.shutdown b order)
  | .clearShutdown =>
    if sys.held.isSome then some sys
    else if sys.shut then some { sys with shut := false }
    else some (sys.shutdown b order)

/-- A run of events. -/
def Sys.run (sys : Sys) (ops : List Op) : Option Sys := ops.foldlM (Sys.step b order) sys

/-! ## What is to be shown -/

/-- Where a node can be. -/
inductive Location where
  | freeList
  | queue (oid : Nat)
  | handler
  deriving DecidableEq

/-- The node is found along the links from there. -/
def Sys.At (sys : Sys) (n : Nat) : Location → Prop
  | .freeList => ∃ l, Linked sys.pool.next l ∧ l.head? = sys.pool.freeList ∧ n ∈ l
  | .queue oid => ∃ slot l, sys.slots oid = some slot ∧ Linked sys.pool.next l ∧
      l.head? = slot.head.first ∧ n ∈ l
  | .handler => ∃ held, sys.held = some held ∧ held.node = n

/-! ## Transfers of nodes -/

section Transfers

variable {p p' : Pool} {h h' : Head} {parts parts' : Place → List Nat} {loose : List Nat}
  {n oid k : Nat} {r : Head × Pool}

/-- The nodes a transfer gets from its handler. -/
def Transfer.takes : Transfer → List Nat
  | .push n => [n]
  | .free n => [n]
  | .pushLoad n => [n]
  | _ => []

/-- The moves in the queue behind a transfer. -/
def Transfer.length : Transfer → Nat → Nat
  | .push _, k => k + 1
  | .load, k => k - 1
  | .pop, k => k - 1
  | .empty, _ => 0
  | _, k => k

/-- Nodes have moved between the free list and the queue of `oid`, which has `k` now. -/
structure Moves (oid : Nat) (p : Pool) (parts : Place → List Nat) (loose : List Nat) (k : Nat)
    (r : Head × Pool) (parts' : Place → List Nat) : Prop where
  count : r.2.moveCount = p.moveCount
  keeps : r.2.Keeps parts' loose
  holds : r.1.Holds (parts' (.queue oid))
  length : (parts' (.queue oid)).length = k
  frame : Frame oid parts parts'

theorem moves_none (hp : p.Keeps parts loose) (hh : h.Holds (parts (.queue oid))) :
    Moves oid p parts loose (parts (.queue oid)).length (h, p) parts :=
  ⟨rfl, hp, hh, rfl, fun _ _ => rfl⟩

theorem Moves.trans {r₁ : Head × Pool} {parts₁ : Place → List Nat} {loose₁ : List Nat} {k₁ : Nat}
    (h₁ : Moves oid p parts loose₁ k₁ r₁ parts₁) (h₂ : Moves oid r₁.2 parts₁ loose k r parts') :
    Moves oid p parts loose k r parts' :=
  ⟨h₂.count.trans h₁.count, h₂.keeps, h₂.holds, h₂.length,
    fun o ho => (h₂.frame o ho).trans (h₁.frame o ho)⟩

variable (hh : h.Holds (parts (.queue oid)))
include hh

theorem popFree_moves (hp : p.Keeps parts loose) (hne : parts (.queue oid) ≠ []) :
    ∃ r parts', popFree h p = some r ∧
      Moves oid p parts loose ((parts (.queue oid)).length - 1) r parts' := by
  obtain ⟨n, q, hq⟩ := exists_cons_of_ne_nil hne
  rw [hq] at hh
  obtain ⟨h', parts', hpop, hh', hp', hq', hframe⟩ := hp.popFree hh hq
  refine ⟨(h', moveFree n p), parts', ?_, rfl, hp', ?_, ?_, hframe⟩
  · rw [popFree, hpop]
    rfl
  · rw [hq']
    exact hh'
  · rw [hq', hq]
    rfl

theorem loadNode_moves (hp : p.Keeps parts loose) :
    ∃ r parts', loadNode h p = some r ∧
      Moves oid p parts loose ((parts (.queue oid)).length - 1) r parts' := by
  rw [loadNode]
  by_cases hnil : parts (.queue oid) = []
  · have hnone := moves_none hp hh
    have hfirst := hh.first
    rw [hnil] at hfirst
    refine ⟨_, parts, if_pos hfirst, ?_⟩
    rw [hnil] at hnone ⊢
    exact hnone
  · have hfirst : h.first ≠ none := by
      rw [hh.first]
      exact fun hnone => hnil (head?_eq_none_iff.mp hnone)
    rw [if_neg hfirst]
    exact popFree_moves hh hp hnil

theorem push_moves (hp : p.Keeps parts (n :: loose)) :
    ∃ first r parts', moveQueuePush n h p = some (first, r) ∧
      Moves oid p parts loose ((parts (.queue oid)).length + 1) r parts' := by
  obtain ⟨h', p', hpush, hcount, hh', hp'⟩ := hp.push hh
  refine ⟨_, (h', p'), _, hpush, hcount, hp', ?_, ?_, fun o ho => ?_⟩
  · rw [update_self]
    exact hh'
  · rw [update_self, length_append]
    rfl
  · exact update_of_ne (fun heq => ho (Place.queue.inj heq)) _ _

/-- **NO TRANSFER** loses a node, or follows a null pointer. -/
theorem Transfer.run_moves (t : Transfer) (hp : p.Keeps parts (t.takes ++ loose))
    (hpop : t = .pop → parts (.queue oid) ≠ []) :
    ∃ r parts', t.run h p = some r ∧
      Moves oid p parts loose (t.length (parts (.queue oid)).length) r parts' := by
  cases t with
  | keep => exact ⟨_, _, rfl, moves_none hp hh⟩
  | push n =>
    obtain ⟨first, r, parts', hpush, hmoves⟩ := push_moves hh hp
    refine ⟨r, parts', ?_, hmoves⟩
    rw [Transfer.run, hpush]
    rfl
  | free n =>
    have hother : ∀ o, update parts .free (n :: parts .free) (.queue o) =
        parts (.queue o) := fun o => update_of_ne (Place.queue_ne_free o) _ _
    refine ⟨_, _, rfl, rfl, hp.moveFree, ?_, ?_, fun o _ => hother o⟩
    · rw [hother]
      exact hh
    · rw [hother]
      rfl
  | load => exact loadNode_moves hh hp
  | pop => exact popFree_moves hh hp (hpop rfl)
  | pushLoad n =>
    obtain ⟨first, r₁, parts₁, hpush, hmoves₁⟩ := push_moves hh hp
    obtain ⟨r, parts', hload, hmoves⟩ := loadNode_moves hmoves₁.holds hmoves₁.keeps
    rw [hmoves₁.length, Nat.add_sub_cancel] at hmoves
    refine ⟨r, parts', ?_, hmoves₁.trans hmoves⟩
    rw [Transfer.run, hpush]
    exact hload
  | empty =>
    obtain ⟨h', p', parts', hfree, hcount, hh', hp', hq', hframe⟩ :=
      hp.freeQueue hh rfl (hp.length_le _)
    refine ⟨(h', p'), parts', hfree, hcount, hp', ?_, ?_, hframe⟩
    · rw [hq']
      exact hh'
    · rw [hq']
      rfl

end Transfers

/-! ## Queues of objects -/

section Objects

variable {b}

/-- **A STEP EVENT** takes a move from the queue exactly when it loads one. -/
theorem event_mq {reads : Stepper.Reads} {s : Stepper.State}
    {r : Stepper.Sched × Stepper.State} (h : s.event b reads = .ok r) :
    r.2.mq = if stepLoads b s then s.mq.tail else s.mq := by
  rw [Stepper.State.event] at h
  rw [stepLoads]
  cases hpath : s.path b with
  | edge =>
    rw [hpath] at h
    dsimp only at h ⊢
    rw [Stepper.eventEdge] at h
    split at h
    · rename_i hcount
      cases h
      rw [decide_eq_false (p := s.count - 1 = 0) hcount]
      rfl
    · rename_i hcount
      rw [decide_eq_true (p := s.count - 1 = 0) (not_not.mp hcount)]
      exact (Stepper.loadNext_frame h).1
  | avr =>
    rw [hpath] at h
    dsimp only at h ⊢
    rw [Stepper.eventAvr] at h
    split at h
    · rename_i hcount
      cases h
      rw [decide_eq_false (p := s.count.toUInt16 - 1 = 0) hcount]
      rfl
    · rename_i hcount
      obtain ⟨r₁, hr₁, rfl⟩ := Result.map_eq_ok h
      rw [decide_eq_true (p := s.count.toUInt16 - 1 = 0) (not_not.mp hcount)]
      exact (Stepper.loadNext_frame hr₁).1
  | full =>
    rw [hpath] at h
    dsimp only at h ⊢
    rw [Stepper.eventFull] at h
    dsimp only at h
    split at h
    · rename_i hunstep
      cases h
      rw [decide_eq_false fun hloads => hloads.1 hunstep]
      rfl
    · rename_i hunstep
      split at h
      · rename_i hcount
        cases h
        rw [decide_eq_false fun hloads => hcount hloads.2]
        rfl
      · rename_i hcount
        rw [decide_eq_true ⟨hunstep, not_not.mp hcount⟩]
        exact (Stepper.loadNext_frame h).1

/-- A PWM output whose timer is to load a move has one. -/
def Object.Ready : Object → Prop
  | .pwmOut s => s.armed = true → s.func = .event → s.mq ≠ []
  | _ => True

theorem pwmEvent_mq {s s' : PwmOut.State} (h : PwmOut.pwmEvent s = .ok s') :
    s'.mq = s.mq.tail ∧ (Object.pwmOut s').Ready := by
  cases hmq : s.mq with
  | nil =>
    rw [PwmOut.pwmEvent, hmq] at h
    cases h
  | cons m mq =>
    have happlies := PwmOut.applies hmq
    rw [h] at happlies
    cases happlies with
    | done => exact ⟨rfl, fun harmed => by cases harmed⟩
    | guard => exact ⟨rfl, fun _ hfunc => by cases hfunc⟩
    | next => exact ⟨rfl, fun _ _ => cons_ne_nil _ _⟩

theorem pwmEvent_ne_fault {s : PwmOut.State} (hne : s.mq ≠ []) :
    PwmOut.pwmEvent s ≠ .error .fault := by
  obtain ⟨m, mq, hmq⟩ := exists_cons_of_ne_nil hne
  have happlies := PwmOut.applies hmq
  intro hfault
  rw [hfault] at happlies
  cases happlies

theorem digitalLoadEvent_mq {s s' : DigitalOut.State}
    (h : DigitalOut.digitalLoadEvent s = .ok s') : s'.mq = s.mq.tail := by
  obtain ⟨m, mq, e, hmq, -, rfl⟩ := DigitalOut.digitalLoadEvent_ok h
  rw [hmq, tail_cons]
  rcases DigitalOut.scheduleNext_cases (s.loaded m mq e) m.onDuration with
    ⟨heq, -⟩ | heq | ⟨heq, -⟩
  · rw [heq]
    rfl
  · rw [heq]
    rfl
  · rw [heq]
    rfl

/-- A handler leaves as many moves in the queue as its transfer does. -/
def Turns (obj : Object) (t : Transfer) (r : Object × Bool) : Prop :=
  r.2 = false → r.1.pending = t.length obj.pending ∧ r.1.Ready

theorem turns_stop (obj obj' : Object) (t : Transfer) : Turns obj t (obj', true) := nofun

/-- **THE TIMER** of an object moves the nodes of its queue as its moves. -/
theorem timer_turns (reads : Stepper.Reads) {obj : Object} (harmed : obj.armed = true)
    (hready : obj.Ready) : ∃ r, obj.timer b reads = some r ∧ Turns obj (obj.timerTransfer b) r := by
  cases obj with
  | stepper s armed =>
    rw [Object.timer, Object.timerTransfer]
    cases hev : s.event b reads with
    | error e => exact ⟨_, rfl, turns_stop _ _ _⟩
    | ok r =>
      refine ⟨_, rfl, fun _ => ⟨?_, trivial⟩⟩
      show r.2.mq.length = _
      rw [event_mq hev]
      cases stepLoads b s with
      | true => exact length_tail
      | false => rfl
  | digitalOut s =>
    rw [Object.timer, Object.timerTransfer]
    cases hfunc : s.func with
    | toggle =>
      refine ⟨_, rfl, fun _ => ⟨?_, trivial⟩⟩
      show (DigitalOut.digitalToggleEvent s).mq.length = _
      rw [(DigitalOut.digitalToggleEvent_frame s).mq]
      rfl
    | load =>
      dsimp only
      cases hev : DigitalOut.digitalLoadEvent s with
      | error e => exact ⟨_, rfl, turns_stop _ _ _⟩
      | ok s' =>
        refine ⟨_, rfl, fun _ => ⟨?_, trivial⟩⟩
        show s'.mq.length = _
        rw [digitalLoadEvent_mq hev]
        exact length_tail
  | pwmOut s =>
    rw [Object.timer, Object.timerTransfer]
    cases hfunc : s.func with
    | endEvent => exact ⟨_, rfl, turns_stop _ _ _⟩
    | event =>
      dsimp only
      cases hev : PwmOut.pwmEvent s with
      | error e =>
        cases e with
        | shutdown reason => exact ⟨_, rfl, turns_stop _ _ _⟩
        | fault => exact absurd hev (pwmEvent_ne_fault (hready harmed hfunc))
      | ok s' =>
        obtain ⟨hmq, hready'⟩ := pwmEvent_mq hev
        refine ⟨_, rfl, fun _ => ⟨?_, hready'⟩⟩
        show s'.mq.length = _
        rw [hmq]
        exact length_tail

theorem timerTransfer_takes (obj : Object) : (obj.timerTransfer b).takes = [] := by
  cases obj with
  | stepper s armed | digitalOut s | pwmOut s =>
    rw [Object.timerTransfer]
    split
    · rfl
    · rfl

/-- Only a PWM output pops without a check. -/
theorem timerTransfer_pop {obj : Object} (harmed : obj.armed = true) (hready : obj.Ready)
    (hpop : obj.timerTransfer b = .pop) : obj.pending ≠ 0 := by
  cases obj with
  | stepper s armed | digitalOut s =>
    rw [Object.timerTransfer] at hpop
    split at hpop
    · cases hpop
    · cases hpop
  | pwmOut s =>
    rw [Object.timerTransfer] at hpop
    split at hpop
    · rename_i hfunc
      exact fun hzero => hready harmed hfunc (length_eq_zero_iff.mp hzero)
    · cases hpop

/-- A handler puts its node somewhere, or shuts down. -/
def Places (n : Nat) (t : Transfer) (r : Object × Bool) : Prop :=
  ∃ rest, t.takes ++ rest = [n] ∧ (r.2 = false → rest = [])

theorem queueStep_turns (interval count add : UInt32) (s : Stepper.State) (armed : Bool) (n : Nat) :
    ∃ r, (Request.queueStep interval count add).turn b (.stepper s armed) = some r ∧
      Turns (.stepper s armed)
        ((Request.queueStep interval count add).transfer n (.stepper s armed)) r ∧
      Places n ((Request.queueStep interval count add).transfer n (.stepper s armed)) r := by
  rw [Request.turn, Request.transfer, Stepper.commandQueueStep]
  dsimp only
  by_cases hzero : count.toUInt16 = 0
  · rw [if_pos hzero, if_pos hzero]
    exact ⟨_, rfl, turns_stop _ _ _, [n], rfl, fun h => by cases h⟩
  rw [if_neg hzero, if_neg hzero]
  by_cases hcount : s.count ≠ 0
  · rw [if_pos hcount, if_pos hcount]
    refine ⟨_, rfl, fun _ => ⟨?_, trivial⟩, [], rfl, fun _ => rfl⟩
    exact length_append
  rw [if_neg hcount, if_neg hcount]
  by_cases hreset : s.needReset = true
  · rw [if_pos hreset, if_pos hreset]
    exact ⟨_, rfl, fun _ => ⟨rfl, trivial⟩, [], rfl, fun _ => rfl⟩
  rw [if_neg hreset, if_neg hreset]
  -- the new move is behind the queue when the first one is loaded
  generalize hs : Stepper.loadNext b 0 _ = loaded
  cases loaded with
  | error e => exact ⟨_, rfl, turns_stop _ _ _, [], rfl, fun _ => rfl⟩
  | ok r =>
    refine ⟨_, rfl, fun _ => ⟨?_, trivial⟩, [], rfl, fun _ => rfl⟩
    show r.2.mq.length = s.mq.length
    rw [(Stepper.loadNext_frame hs).1, length_tail, length_append]
    rfl

theorem queueDigitalOut_turns (time onTicks : UInt32) (s : DigitalOut.State) (n : Nat) :
    ∃ r, (Request.queueDigitalOut time onTicks).turn b (.digitalOut s) = some r ∧
      Turns (.digitalOut s) (.push n) r := by
  rw [Request.turn, DigitalOut.commandQueueDigitalOut]
  dsimp only
  by_cases hne : s.mq ≠ []
  · rw [if_pos hne]
    exact ⟨_, rfl, fun _ => ⟨length_append, trivial⟩⟩
  have hlength : s.mq.length = 0 := length_eq_zero_iff.mpr (not_not.mp hne)
  rw [if_neg hne]
  split
  · rename_i heq
    refine ⟨_, rfl, fun _ => ⟨?_, trivial⟩⟩
    show _ = s.mq.length + 1
    rw [hlength]
    split at heq
    · cases heq
    · split at heq
      · cases heq
        rfl
      · cases heq
        rfl
  · exact ⟨_, rfl, turns_stop _ _ _⟩

theorem queuePwmOut_turns (clock value : UInt32) (s : PwmOut.State) (n : Nat) :
    ∃ r, (Request.queuePwmOut clock value).turn b (.pwmOut s) = some r ∧
      Turns (.pwmOut s) (.push n) r := by
  rw [Request.turn, PwmOut.commandQueuePwmOut]
  dsimp only
  by_cases hne : s.mq ≠ []
  · rw [if_pos hne]
    refine ⟨_, rfl, fun _ => ⟨length_append, fun _ _ => ?_⟩⟩
    exact append_ne_nil_of_left_ne_nil hne _
  have hlength : s.mq.length = 0 := length_eq_zero_iff.mpr (not_not.mp hne)
  rw [if_neg hne]
  by_cases hlate : s.func = .endEvent ∧ Timer.timerIsBefore s.waketime clock = true
  · rw [if_pos hlate]
    exact ⟨_, rfl, turns_stop _ _ _⟩
  · rw [if_neg hlate]
    refine ⟨_, rfl, fun _ => ⟨?_, fun _ _ => cons_ne_nil _ _⟩⟩
    show _ = s.mq.length + 1
    rw [hlength]
    rfl

/-- **A COMMAND** that queues a move. -/
theorem request_turns (request : Request) (obj : Object) (n : Nat) :
    ∃ r, request.turn b obj = some r ∧ Turns obj (request.transfer n obj) r ∧
      Places n (request.transfer n obj) r := by
  have hpush : ∀ r, Places n (.push n) r := fun r => ⟨[], rfl, fun _ => rfl⟩
  cases request with
  | queueStep interval count add =>
    cases obj with
    | stepper s armed => exact queueStep_turns interval count add s armed n
    | digitalOut s | pwmOut s => exact ⟨_, rfl, turns_stop _ _ _, hpush _⟩
  | queueDigitalOut time onTicks =>
    cases obj with
    | stepper s armed | pwmOut s => exact ⟨_, rfl, turns_stop _ _ _, hpush _⟩
    | digitalOut s =>
      obtain ⟨r, hr, hturns⟩ := queueDigitalOut_turns time onTicks s n
      exact ⟨r, hr, hturns, hpush r⟩
  | queuePwmOut clock value =>
    cases obj with
    | stepper s armed | digitalOut s => exact ⟨_, rfl, turns_stop _ _ _, hpush _⟩
    | pwmOut s =>
      obtain ⟨r, hr, hturns⟩ := queuePwmOut_turns clock value s n
      exact ⟨r, hr, hturns, hpush r⟩

theorem transfer_ne_pop (request : Request) (obj : Object) (n : Nat) :
    request.transfer n obj ≠ .pop := by
  rw [Request.transfer.eq_def]
  split
  · split
    · exact nofun
    · split
      · exact nofun
      · split
        · exact nofun
        · exact nofun
  · exact nofun

/-- The other commands leave the queue as it is. -/
theorem setting_turns (setting : Setting) (obj : Object) : Turns obj .keep (setting.turn obj) := by
  rw [Setting.turn.eq_def]
  split
  · exact fun _ => ⟨rfl, trivial⟩
  · rename_i waketime s armed
    rw [Stepper.commandResetStepClock]
    by_cases hcount : s.count ≠ 0
    · rw [if_pos hcount]
      exact turns_stop _ _ _
    · rw [if_neg hcount]
      exact fun _ => ⟨rfl, trivial⟩
  · rename_i cycleTicks s
    rw [DigitalOut.commandSetDigitalOutPwmCycle]
    by_cases hmq : s.mq ≠ []
    · rw [if_pos hmq]
      exact turns_stop _ _ _
    · rw [if_neg hmq]
      exact fun _ => ⟨rfl, trivial⟩
  · rename_i value now s
    rw [DigitalOut.commandUpdateDigitalOut]
    by_cases hmq : s.mq ≠ []
    · rw [if_pos hmq]
      exact turns_stop _ _ _
    · rw [if_neg hmq]
      dsimp only
      by_cases hlimit : decide (value.toUInt8 ≠ 0) ≠ s.flags.defaultOn ∧ s.maxDuration ≠ 0
      · rw [if_pos hlimit]
        exact fun _ => ⟨rfl, trivial⟩
      · rw [if_neg hlimit]
        exact fun _ => ⟨rfl, trivial⟩
  · exact turns_stop _ _ _

end Objects

end Basecmd
