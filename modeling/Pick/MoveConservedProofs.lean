import Pick.MoveSystemProofs

/-! # Move nodes are conserved

Along every run each node is in one place: the free list, the queue of one object,
or the hands of the command that allocated it.  The invariant says which moves are
in which chain, and that each queue has as many nodes as its object has moves.

A shutdown does not keep it, it makes it anew: whatever the chains were, each
shutdown function sets its own part right, and leaves right what another has set. -/

namespace Basecmd

open Chain Function Option

variable {b : Stepper.Board} {order : List ShutdownFunc} {sys sys' : Sys}
  {parts parts' : Place → List Nat} {n oid : Nat}

/-! ## The invariant -/

/-- The queue of an object. -/
structure Slot.Fits (slot : Slot) (q : List Nat) : Prop where
  holds : slot.head.Holds q
  length : q.length = slot.obj.pending
  ready : slot.obj.Ready

/-- The node of the handler that is running. -/
def Sys.loose (sys : Sys) : List Nat := (sys.held.map Held.node).toList

/-- What holds in every run; `parts` tells where the nodes are. -/
structure Sys.Inv (parts : Place → List Nat) (sys : Sys) : Prop where
  keeps : sys.pool.Keeps parts sys.loose
  slots : ∀ oid slot, sys.slots oid = some slot → slot.Fits (parts (.queue oid))
  absent : ∀ oid, sys.slots oid = none → parts (.queue oid) = []
  shutHeld : sys.shut = true → sys.held = none
  shutQueue : sys.shut = true → ∀ oid, parts (.queue oid) = []
  shutArmed : sys.shut = true → ∀ oid slot, sys.slots oid = some slot → slot.obj.armed = false

theorem Pool.Keeps.freeList_none {p : Pool} {loose : List Nat} (h : p.Keeps parts loose)
    (hzero : p.moveCount = 0) : p.freeList = none := by
  have hlength := h.length_le .free
  rw [hzero] at hlength
  rw [h.free, List.length_eq_zero_iff.mp (Nat.le_zero.mp hlength)]
  rfl

/-! ## Shutdown -/

/-- An object without moves, and without a timer. -/
structure Slot.Quiet (slot : Slot) : Prop where
  first : slot.head.first = none
  pending : slot.obj.pending = 0
  armed : slot.obj.armed = false

theorem Slot.Quiet.fits {slot : Slot} (h : slot.Quiet) : slot.Fits [] := by
  refine ⟨head_holds_nil _ h.first, h.pending.symm, ?_⟩
  obtain ⟨obj, head⟩ := slot
  cases obj with
  | stepper s armed => exact trivial
  | digitalOut s => exact trivial
  | pwmOut s => exact fun harmed => absurd (h.armed.symm.trans harmed) Bool.false_ne_true

/-- The objects that a shutdown function is for. -/
def ShutdownFunc.handles : ShutdownFunc → Object → Prop
  | .stepperShutdown, .stepper .. => True
  | .digitalOutShutdown, .digitalOut _ => True
  | .pwmShutdown, .pwmOut _ => True
  | _, _ => False

theorem exists_handles (obj : Object) : ∃ f : ShutdownFunc, f.handles obj := by
  cases obj with
  | stepper s armed => exact ⟨.stepperShutdown, trivial⟩
  | digitalOut s => exact ⟨.digitalOutShutdown, trivial⟩
  | pwmOut s => exact ⟨.pwmShutdown, trivial⟩

/-- A function changes the objects it is for, and makes them quiet. -/
theorem slot_cases (f : ShutdownFunc) (slot : Slot) :
    (f.slot b slot = slot ∧ ¬ f.handles slot.obj) ∨
      (slot.obj.armed = false → (f.slot b slot).Quiet) ∧ f.handles slot.obj := by
  obtain ⟨obj, head⟩ := slot
  cases f with
  | moveReset => exact .inl ⟨rfl, not_false⟩
  | stepperShutdown =>
    cases obj with
    | stepper s armed => exact .inr ⟨fun _ => ⟨rfl, rfl, rfl⟩, trivial⟩
    | digitalOut s | pwmOut s => exact .inl ⟨rfl, not_false⟩
  | digitalOutShutdown =>
    cases obj with
    | stepper s armed | pwmOut s => exact .inl ⟨rfl, not_false⟩
    | digitalOut s => exact .inr ⟨fun hoff => ⟨rfl, rfl, hoff⟩, trivial⟩
  | pwmShutdown =>
    cases obj with
    | stepper s armed | digitalOut s => exact .inl ⟨rfl, not_false⟩
    | pwmOut s => exact .inr ⟨fun _ => ⟨rfl, rfl, rfl⟩, trivial⟩

/-- All nodes are free. -/
def allFree (moveCount : Nat) : Place → List Nat :=
  update (fun _ => []) .free (List.range moveCount)

theorem allFree_queue (moveCount oid : Nat) : allFree moveCount (.queue oid) = [] :=
  update_of_ne (Place.queue_ne_free oid) _ _

/-- What holds before and behind each shutdown function. -/
structure Sys.Halting (moveCount : Nat) (sys : Sys) : Prop where
  count : sys.pool.moveCount = moveCount
  empty : sys.pool.moveCount = 0 → sys.pool.freeList = none
  unarmed : ∀ oid slot, sys.slots oid = some slot → slot.obj.armed = false

/-- What a shutdown function sets right. -/
structure Sys.Done (moveCount : Nat) (f : ShutdownFunc) (sys : Sys) : Prop where
  pool : f = .moveReset → sys.pool.Keeps (allFree moveCount) []
  slots : ∀ oid slot, sys.slots oid = some slot → f.handles slot.obj → slot.Quiet

theorem runFunc_slots {f : ShutdownFunc} {slot : Slot}
    (h : (sys.runFunc b f).slots oid = some slot) :
    ∃ slot₀, sys.slots oid = some slot₀ ∧ f.slot b slot₀ = slot :=
  map_eq_some_iff.mp h

variable {moveCount : Nat}

theorem moveReset_allFree (h : sys.Halting moveCount) :
    (moveReset sys.pool).moveCount = moveCount ∧
      (moveReset sys.pool).Keeps (allFree moveCount) [] := by
  obtain ⟨hcount, hkeeps⟩ := moveReset_keeps sys.pool h.empty
  rw [h.count] at hcount hkeeps
  exact ⟨hcount, hkeeps⟩

theorem Sys.Halting.runFunc (h : sys.Halting moveCount)
    (f : ShutdownFunc) : (sys.runFunc b f).Halting moveCount := by
  have hslots : ∀ oid slot, (sys.runFunc b f).slots oid = some slot → slot.obj.armed = false := by
    intro oid slot hslot
    obtain ⟨slot₀, hslot₀, rfl⟩ := runFunc_slots hslot
    rcases slot_cases (b := b) f slot₀ with ⟨hsame, -⟩ | ⟨hquiet, -⟩
    · rw [hsame]
      exact h.unarmed oid slot₀ hslot₀
    · exact (hquiet (h.unarmed oid slot₀ hslot₀)).armed
  cases f with
  | moveReset =>
    obtain ⟨hcount, hkeeps⟩ := moveReset_allFree h
    exact ⟨hcount, hkeeps.freeList_none, hslots⟩
  | stepperShutdown | digitalOutShutdown | pwmShutdown => exact ⟨h.count, h.empty, hslots⟩

theorem Sys.Halting.done (h : sys.Halting moveCount) (f : ShutdownFunc) :
    (sys.runFunc b f).Done moveCount f := by
  refine ⟨?_, fun oid slot hslot hhandles => ?_⟩
  · rintro rfl
    exact (moveReset_allFree h).2
  · obtain ⟨slot₀, hslot₀, rfl⟩ := runFunc_slots hslot
    rcases slot_cases (b := b) f slot₀ with ⟨hsame, hnot⟩ | ⟨hquiet, -⟩
    · rw [hsame] at hhandles
      exact absurd hhandles hnot
    · exact hquiet (h.unarmed oid slot₀ hslot₀)

theorem Sys.Done.runFunc {f g : ShutdownFunc} (hdone : sys.Done moveCount g)
    (h : sys.Halting moveCount) (hne : g ≠ f) : (sys.runFunc b f).Done moveCount g := by
  refine ⟨?_, fun oid slot hslot hhandles => ?_⟩
  · rintro rfl
    have hpool : (sys.runFunc b f).pool = sys.pool := by
      cases f with
      | moveReset => exact absurd rfl hne
      | stepperShutdown => rfl
      | digitalOutShutdown => rfl
      | pwmShutdown => rfl
    rw [hpool]
    exact hdone.pool rfl
  · obtain ⟨slot₀, hslot₀, rfl⟩ := runFunc_slots hslot
    rcases slot_cases (b := b) f slot₀ with ⟨hsame, -⟩ | ⟨hquiet, -⟩
    · rw [hsame] at hhandles ⊢
      exact hdone.slots oid slot₀ hslot₀ hhandles
    · exact hquiet (h.unarmed oid slot₀ hslot₀)

theorem disarm_armed (obj : Object) : obj.disarm.armed = false := by
  cases obj with
  | stepper s armed => rfl
  | digitalOut s => rfl
  | pwmOut s => rfl

/-- **A SHUTDOWN** frees all nodes and empties all queues, in any order of its functions. -/
theorem Sys.shutdown_inv (horder : ∀ f, f ∈ order) {loose : List Nat}
    (hkeeps : sys.pool.Keeps parts loose) :
    (sys.shutdown b order).Inv (allFree sys.pool.moveCount) ∧
      (sys.shutdown b order).pool.moveCount = sys.pool.moveCount := by
  have hstart : sys.schedTimerReset.Halting sys.pool.moveCount := by
    refine ⟨rfl, hkeeps.freeList_none, fun oid slot hslot => ?_⟩
    obtain ⟨slot₀, -, rfl⟩ := map_eq_some_iff.mp hslot
    exact disarm_armed slot₀.obj
  obtain ⟨hend, hall⟩ := @Loop.foldl_all _ _ (Sys.runFunc b)
    (Sys.Halting sys.pool.moveCount) (Sys.Done sys.pool.moveCount)
    (fun _ f hs => hs.runFunc f) (fun _ f hs => hs.done f)
    (fun _ _ _ hs hdone hne => hdone.runFunc hs hne) order _ hstart
  have hdone : ∀ f, (order.foldl (Sys.runFunc b) sys.schedTimerReset).Done
      sys.pool.moveCount f := fun f => hall f (.inl (horder f))
  have hquiet : ∀ oid slot, (sys.shutdown b order).slots oid = some slot → slot.Quiet := by
    intro oid slot hslot
    obtain ⟨f, hf⟩ := exists_handles slot.obj
    exact (hdone f).slots oid slot hslot hf
  refine ⟨⟨(hdone .moveReset).pool rfl, fun oid slot hslot => ?_, fun oid _ => ?_,
    fun _ => rfl, fun _ oid => ?_, fun _ oid slot hslot => (hquiet oid slot hslot).armed⟩,
    hend.count⟩
  · rw [allFree_queue]
    exact (hquiet oid slot hslot).fits
  · exact allFree_queue _ _
  · exact allFree_queue _ _

/-! ## Every event keeps the invariant -/

/-- **A HANDLER** that does with the nodes of its queue what it does with its moves. -/
theorem Sys.Inv.settle (horder : ∀ f, f ∈ order) {slot : Slot} {t : Transfer}
    {r : Object × Bool} {rest : List Nat} (hslot : sys.slots oid = some slot)
    (hkeeps : sys.pool.Keeps parts (t.takes ++ rest))
    (hslots : ∀ oid slot, sys.slots oid = some slot → slot.Fits (parts (.queue oid)))
    (habsent : ∀ oid, sys.slots oid = none → parts (.queue oid) = [])
    (hpop : t = .pop → slot.obj.pending ≠ 0) (hturns : Turns slot.obj t r)
    (hrest : r.2 = false → rest = sys.loose)
    (hshut : sys.shut = true → sys.Inv parts ∧ t.length 0 = 0 ∧ r.1.armed = false) :
    ∃ sys' parts', sys.settle b order oid slot t (some r) = some sys' ∧ sys'.Inv parts' ∧
      sys'.pool.moveCount = sys.pool.moveCount := by
  have hfits := hslots oid slot hslot
  have hne : t = .pop → parts (.queue oid) ≠ [] := by
    intro ht hnil
    have hlength := hfits.length
    rw [hnil] at hlength
    exact hpop ht hlength.symm
  obtain ⟨⟨head, pool⟩, parts', hrun, hmoves⟩ := t.run_moves hfits.holds hkeeps hne
  obtain ⟨obj, stops⟩ := r
  rw [Sys.settle, hrun]
  cases stops with
  | true =>
    -- the node a handler has lost is found again by `move_reset`
    obtain ⟨hinv, hcount⟩ := @Sys.shutdown_inv b order
      { sys with pool := pool, slots := update sys.slots oid (some ⟨obj, head⟩) }
      parts' horder rest hmoves.keeps
    exact ⟨_, _, rfl, hinv, hcount.trans hmoves.count⟩
  | false =>
    obtain ⟨hpending, hready⟩ := hturns rfl
    obtain rfl := hrest rfl
    have hnew : Slot.Fits ⟨obj, head⟩ (parts' (.queue oid)) := by
      refine ⟨hmoves.holds, ?_, hready⟩
      rw [hmoves.length, hfits.length]
      exact hpending.symm
    have hupdate := @forall_update_iff _ _ _ sys.slots oid (some ⟨obj, head⟩)
    refine ⟨_, parts', rfl, ⟨hmoves.keeps,
      (hupdate fun o slot => ∀ s, slot = some s → s.Fits (parts' (.queue o))).mpr
        ⟨?_, fun o ho => ?_⟩,
      (hupdate fun o slot => slot = none → parts' (.queue o) = []).mpr ⟨nofun, fun o ho => ?_⟩,
      fun hs => (hshut hs).1.shutHeld hs, fun hs o => ?_, fun hs =>
        (hupdate fun _ slot => ∀ s, slot = some s → s.obj.armed = false).mpr
          ⟨?_, fun o _ => (hshut hs).1.shutArmed hs o⟩⟩, hmoves.count⟩
    · rintro _ ⟨⟩
      exact hnew
    · rw [hmoves.frame o ho]
      exact hslots o
    · rw [hmoves.frame o ho]
      exact habsent o
    · obtain ⟨hinv, hzero, -⟩ := hshut hs
      by_cases ho : o = oid
      · have hlength := hmoves.length
        rw [hinv.shutQueue hs oid] at hlength
        rw [ho, List.length_eq_zero_iff.mp (hlength.trans hzero)]
      · rw [hmoves.frame o ho, hinv.shutQueue hs o]
    · rintro _ ⟨⟩
      exact (hshut hs).2.2

/-- The state behind one event, or behind all. -/
def Sys.Leads (sys : Sys) (next : Option Sys) : Prop :=
  ∃ sys' parts', next = some sys' ∧ sys'.Inv parts' ∧ sys'.pool.moveCount = sys.pool.moveCount

theorem Sys.Inv.leads_self (h : sys.Inv parts) : sys.Leads (some sys) := ⟨sys, parts, rfl, h, rfl⟩

/-- A command may run: no other does, and the firmware is not shut down. -/
theorem not_busy (hbusy : ¬ (sys.held.isSome || sys.shut) = true) :
    sys.held = none ∧ sys.shut ≠ true := by
  rw [Bool.or_eq_true, not_or, Bool.not_eq_true] at hbusy
  exact ⟨isSome_eq_false_iff.mp hbusy.1 |> isNone_iff_eq_none.mp, hbusy.2⟩

section Events

variable (horder : ∀ f, f ∈ order) (h : sys.Inv parts)
include horder h

theorem Sys.Inv.leads_shutdown : sys.Leads (some (sys.shutdown b order)) := by
  obtain ⟨hinv, hcount⟩ := Sys.shutdown_inv (b := b) horder h.keeps
  exact ⟨_, _, rfl, hinv, hcount⟩

theorem Sys.Inv.start (oid : Nat) (request : Request) :
    sys.Leads (sys.step b order (.start oid request)) := by
  rw [Sys.step]
  by_cases hbusy : (sys.held.isSome || sys.shut) = true
  · rw [if_pos hbusy]
    exact h.leads_self
  obtain ⟨hheld, hshut⟩ := not_busy hbusy
  rw [if_neg hbusy]
  cases hslot : sys.slots oid with
  | none => exact h.leads_shutdown horder
  | some slot =>
    dsimp only
    by_cases hfits : request.fits slot.obj = true
    · rw [if_pos hfits]
      cases halloc : moveAlloc sys.pool with
      | none => exact h.leads_shutdown horder
      | some r =>
        obtain ⟨hcount, l, -, hkeeps⟩ := h.keeps.alloc halloc
        have hqueue : ∀ o, update parts .free l (.queue o) = parts (.queue o) :=
          fun o => update_of_ne (Place.queue_ne_free o) _ _
        have hloose : sys.loose = [] := by
          rw [Sys.loose, hheld]
          rfl
        rw [hloose] at hkeeps
        refine ⟨_, _, rfl, ⟨hkeeps, fun o slot' hslot' => ?_, fun o hnone => ?_,
          fun hs => absurd hs hshut,
          fun hs => absurd hs hshut,
          fun hs => absurd hs hshut⟩, hcount⟩
        · rw [hqueue]
          exact h.slots o slot' hslot'
        · rw [hqueue]
          exact h.absent o hnone
    · rw [if_neg hfits]
      exact h.leads_shutdown horder

theorem Sys.Inv.finish : sys.Leads (sys.step b order .finish) := by
  rw [Sys.step]
  cases hheld : sys.held with
  | none => exact h.leads_self
  | some held =>
    obtain ⟨n, o, request⟩ := held
    dsimp only
    cases hslot : sys.slots o with
    | none => exact h.leads_shutdown horder
    | some slot =>
      obtain ⟨r, hr, hturns, rest, htakes, hrest⟩ := request_turns (b := b) request slot.obj n
      have hkeeps := h.keeps
      rw [show sys.loose = [n] by rw [Sys.loose, hheld]; rfl, ← htakes] at hkeeps
      dsimp only
      rw [hr]
      exact @Sys.Inv.settle b order { sys with held := none } parts o horder slot _ r rest
        hslot hkeeps h.slots h.absent
        (fun hpop => absurd hpop (transfer_ne_pop request slot.obj n)) hturns hrest
        fun hs => nomatch hheld.symm.trans (h.shutHeld hs)

theorem Sys.Inv.set (oid : Nat) (setting : Setting) :
    sys.Leads (sys.step b order (.set oid setting)) := by
  rw [Sys.step]
  by_cases hbusy : (sys.held.isSome || sys.shut) = true
  · rw [if_pos hbusy]
    exact h.leads_self
  obtain ⟨-, hshut⟩ := not_busy hbusy
  rw [if_neg hbusy]
  cases hslot : sys.slots oid with
  | none => exact h.leads_shutdown horder
  | some slot =>
    exact Sys.Inv.settle horder hslot h.keeps h.slots h.absent nofun
      (setting_turns setting slot.obj) (fun _ => rfl)
      fun hs => absurd hs hshut

theorem Sys.Inv.timer (oid : Nat) (reads : Stepper.Reads) :
    sys.Leads (sys.step b order (.timer oid reads)) := by
  rw [Sys.step]
  cases hslot : sys.slots oid with
  | none => exact h.leads_self
  | some slot =>
    dsimp only
    by_cases harmed : slot.obj.armed = true
    · have hready := (h.slots oid slot hslot).ready
      obtain ⟨r, hr, hturns⟩ := timer_turns (b := b) reads harmed hready
      have hkeeps := h.keeps
      rw [← List.nil_append sys.loose, ← timerTransfer_takes (b := b) slot.obj] at hkeeps
      rw [if_pos harmed, hr]
      exact Sys.Inv.settle horder hslot hkeeps h.slots h.absent
        (timerTransfer_pop harmed hready) hturns (fun _ => rfl)
        fun hs => absurd (harmed.symm.trans (h.shutArmed hs oid slot hslot)) Bool.false_ne_true.symm
    · rw [if_neg harmed]
      exact h.leads_self

theorem Sys.Inv.trigger (oid : Nat) : sys.Leads (sys.step b order (.trigger oid)) := by
  rw [Sys.step]
  split
  · rename_i s armed head hslot
    exact Sys.Inv.settle horder hslot h.keeps h.slots h.absent nofun
      (fun _ => ⟨rfl, trivial⟩) (fun _ => rfl) fun _ => ⟨h, rfl, rfl⟩
  · exact h.leads_self

theorem Sys.Inv.clearShutdown : sys.Leads (sys.step b order .clearShutdown) := by
  rw [Sys.step]
  split
  · exact h.leads_self
  · split
    · exact ⟨_, parts, rfl, ⟨h.keeps, h.slots, h.absent, nofun, nofun, nofun⟩, rfl⟩
    · exact h.leads_shutdown horder

/-- **EVERY EVENT** keeps the invariant. -/
theorem Sys.Inv.step (op : Op) : sys.Leads (sys.step b order op) := by
  cases op with
  | start oid request => exact h.start horder oid request
  | finish => exact h.finish horder
  | set oid setting => exact h.set horder oid setting
  | timer oid reads => exact h.timer horder oid reads
  | trigger oid => exact h.trigger horder oid
  | shutdown => exact h.leads_shutdown horder
  | clearShutdown => exact h.clearShutdown horder

end Events

theorem Sys.Inv.run (horder : ∀ f, f ∈ order) (ops : List Op) (h : sys.Inv parts) :
    sys.Leads (sys.run b order ops) := by
  induction ops generalizing sys parts with
  | nil => exact h.leads_self
  | cons op ops ih =>
    obtain ⟨sys₁, parts₁, hstep, hinv₁, hcount₁⟩ := h.step horder op
    obtain ⟨sys', parts', hrun, hinv, hcount⟩ := ih hinv₁
    refine ⟨sys', parts', ?_, hinv, hcount.trans hcount₁⟩
    rw [Sys.run, List.foldlM_cons, hstep]
    exact hrun

/-! ## Where the nodes are -/

theorem start_inv (b : Stepper.Board) (moveCount : Nat) (configs : Nat → Option Config) :
    (Sys.start b moveCount configs).Inv (allFree moveCount) ∧
      (Sys.start b moveCount configs).pool.moveCount = moveCount := by
  obtain ⟨hcount, hkeeps⟩ := moveReset_keeps ⟨fun _ => none, none, moveCount⟩ fun _ => rfl
  refine ⟨⟨hkeeps, fun oid slot hslot => ?_, fun oid _ => allFree_queue moveCount oid,
    nofun, nofun, nofun⟩, hcount⟩
  obtain ⟨config, -, rfl⟩ := map_eq_some_iff.mp hslot
  rw [allFree_queue]
  refine Slot.Quiet.fits ⟨rfl, ?_, ?_⟩
  · cases config with
    | stepper invertStep stepPulseTicks =>
      obtain ⟨-, -, hmq, -⟩ := Stepper.commandConfigStepper_spec b invertStep stepPulseTicks
      exact List.length_eq_zero_iff.mpr hmq
    | digitalOut value defaultValue maxDuration => rfl
    | pwmOut value defaultValue maxDuration => rfl
  · cases config with
    | stepper invertStep stepPulseTicks => rfl
    | digitalOut value defaultValue maxDuration => rfl
    | pwmOut value defaultValue maxDuration => rfl

theorem Sys.Inv.at_freeList (h : sys.Inv parts) : sys.At n .freeList ↔ n ∈ parts .free := by
  constructor
  · rintro ⟨l, hlinked, hhead, hn⟩
    rw [hlinked.unique (h.keeps.parted.linked .free) (hhead.trans h.keeps.free)] at hn
    exact hn
  · exact fun hn => ⟨_, h.keeps.parted.linked .free, h.keeps.free.symm, hn⟩

theorem Sys.Inv.at_queue (h : sys.Inv parts) : sys.At n (.queue oid) ↔ n ∈ parts (.queue oid) := by
  constructor
  · rintro ⟨slot, l, hslot, hlinked, hhead, hn⟩
    rw [hlinked.unique (h.keeps.parted.linked (.queue oid))
      (hhead.trans (h.slots oid slot hslot).holds.first)] at hn
    exact hn
  · intro hn
    cases hslot : sys.slots oid with
    | none =>
      rw [h.absent oid hslot] at hn
      cases hn
    | some slot =>
      exact ⟨slot, _, hslot, h.keeps.parted.linked (.queue oid),
        (h.slots oid slot hslot).holds.first.symm, hn⟩

theorem at_handler : sys.At n .handler ↔ n ∈ sys.loose := by
  rw [Sys.loose, mem_toList, map_eq_some_iff]
  exact Iff.rfl

/-- A node that is in a chain is nowhere else. -/
theorem Sys.Inv.at_place {loc : Location} (h : sys.Inv parts) (hn : sys.At n loc) :
    (loc = .handler ∧ n ∈ sys.loose) ∨
      ∃ pl, n ∈ parts pl ∧ loc = match pl with
        | .free => .freeList
        | .queue oid => .queue oid := by
  cases loc with
  | freeList => exact .inr ⟨.free, h.at_freeList.mp hn, rfl⟩
  | queue oid => exact .inr ⟨.queue oid, h.at_queue.mp hn, rfl⟩
  | handler => exact .inl ⟨rfl, at_handler.mp hn⟩

theorem Sys.Inv.existsUnique_at (h : sys.Inv parts) (hn : n < sys.pool.moveCount) :
    ∃! loc, sys.At n loc := by
  have hexists : ∃ loc, sys.At n loc := by
    rcases (h.keeps.parted.cover n).mp hn with ⟨pl, hpl⟩ | hloose
    · cases pl with
      | free => exact ⟨.freeList, h.at_freeList.mpr hpl⟩
      | queue oid => exact ⟨.queue oid, h.at_queue.mpr hpl⟩
    · exact ⟨.handler, at_handler.mpr hloose⟩
  obtain ⟨loc, hloc⟩ := hexists
  refine ⟨loc, hloc, fun loc' hloc' => ?_⟩
  rcases h.at_place hloc with ⟨rfl, hloose⟩ | ⟨pl, hpl, rfl⟩
  · rcases h.at_place hloc' with ⟨rfl, -⟩ | ⟨pl', hpl', -⟩
    · rfl
    · exact absurd hloose (h.keeps.parted.apart pl' n hpl')
  · rcases h.at_place hloc' with ⟨-, hloose⟩ | ⟨pl', hpl', rfl⟩
    · exact absurd hloose (h.keeps.parted.apart pl n hpl)
    · rw [h.keeps.parted.disjoint pl pl' n hpl hpl']

/-- **MOVE NODES ARE CONSERVED** in every run: each is in exactly one place, outside handlers
    the free list or one queue; in a shutdown, in whatever order its functions ran, all are free
    and no move is queued. -/
theorem nodes_conserved (b : Stepper.Board) (order : List ShutdownFunc)
    (horder : ∀ f, f ∈ order) (moveCount : Nat) (configs : Nat → Option Config) (ops : List Op) :
    ∃ sys, (Sys.start b moveCount configs).run b order ops = some sys ∧
      (∀ n < moveCount, ∃! loc, sys.At n loc) ∧ (sys.held = none → ∀ n, ¬ sys.At n .handler) ∧
      (sys.shut = true → (∀ n < moveCount, sys.At n .freeList) ∧
        ∀ oid slot, sys.slots oid = some slot → slot.head.first = none ∧ slot.obj.pending = 0) := by
  obtain ⟨hstart, hcount₀⟩ := start_inv b moveCount configs
  obtain ⟨sys, parts, hrun, hinv, hcount⟩ := hstart.run (b := b) horder ops
  rw [hcount₀] at hcount
  refine ⟨sys, hrun, fun n hn => hinv.existsUnique_at (hcount.symm ▸ hn), ?_, fun hshut => ?_⟩
  · rintro hheld n ⟨held, hsome, -⟩
    exact nomatch hheld.symm.trans hsome
  · refine ⟨fun n hn => hinv.at_freeList.mpr ?_, fun oid slot hslot => ?_⟩
    · rcases (hinv.keeps.parted.cover n).mp (hcount.symm ▸ hn) with ⟨pl, hpl⟩ | hloose
      · cases pl with
        | free => exact hpl
        | queue oid =>
          rw [hinv.shutQueue hshut oid] at hpl
          cases hpl
      · rw [Sys.loose, hinv.shutHeld hshut] at hloose
        cases hloose
    · have hfits := hinv.slots oid slot hslot
      rw [hinv.shutQueue hshut oid] at hfits
      exact ⟨hfits.holds.first, hfits.length.symm⟩

/-- A stepper and an output with three nodes; the second step command has its node when
    the trigger stops the stepper, and the late move of the output shuts down. -/
def crossedOps : List Op :=
  [.start 0 (.queueStep 1000 5 0), .finish, .start 0 (.queueStep 1000 7 0), .trigger 0,
    .finish, .start 1 (.queueDigitalOut 500 10), .finish, .timer 1 ⟨0, 0⟩,
    .start 1 (.queueDigitalOut 9000 0), .finish]

/-- A stepper and a digital output. -/
def twoObjects : Nat → Option Config
  | 0 => some (.stepper 0 2)
  | 1 => some (.digitalOut 0 0 100)
  | _ => none

theorem nodes_conserved_crossed :
    (∀ f, f ∈ [ShutdownFunc.digitalOutShutdown, .moveReset, .pwmShutdown, .stepperShutdown]) ∧
      ∃ sys, (Sys.start Stepper.plainBoard 3 twoObjects).run Stepper.plainBoard
          [.digitalOutShutdown, .moveReset, .pwmShutdown, .stepperShutdown] crossedOps =
            some sys ∧
        (∀ n < 3, ∃! loc, sys.At n loc) ∧ (sys.held = none → ∀ n, ¬ sys.At n .handler) ∧
        (sys.shut = true → (∀ n < 3, sys.At n .freeList) ∧ ∀ oid slot, sys.slots oid = some slot →
            slot.head.first = none ∧ slot.obj.pending = 0) := by
  have horder : ∀ f, f ∈ [ShutdownFunc.digitalOutShutdown, .moveReset, .pwmShutdown,
      .stepperShutdown] := by
    intro f
    cases f <;> decide
  exact ⟨horder, nodes_conserved Stepper.plainBoard _ horder 3 twoObjects crossedOps⟩

/-- The run of `crossedOps` ends in a shutdown. -/
example : ((Sys.start Stepper.plainBoard 3 twoObjects).run Stepper.plainBoard
    [.digitalOutShutdown, .moveReset, .pwmShutdown, .stepperShutdown] crossedOps).map
      (fun sys => (sys.shut, sys.pool.freeList)) = some (true, some 0) := by
  decide +kernel

/-- **QUEUES MATCH THE MOVES** of their objects in every run. -/
theorem queues_fit (order : {l : List ShutdownFunc // ∀ f, f ∈ l})
    (configs : Nat → Option Config) (ops : List Op) :
    ∃ sys parts, (Sys.start b moveCount configs).run b order ops = some sys ∧
      sys.pool.Keeps parts sys.loose ∧
      ∀ oid slot, sys.slots oid = some slot → slot.Fits (parts (.queue oid)) := by
  obtain ⟨sys, parts, hrun, hinv, -⟩ := (start_inv b moveCount configs).1.run order.2 ops
  exact ⟨sys, parts, hrun, hinv.keeps, hinv.slots⟩

end Basecmd
