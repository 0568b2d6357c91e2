import Pick.PartedProofs

/-! # Move nodes and move queues (`src/basecmd.c`)

The nodes for queued moves are allocated once, `move_count` of them.  A node is in
the free list or in the queue of an object, and both are kept by the `next` pointers
of the nodes themselves.  Nodes are numbered by their place in `move_list`. -/

namespace Basecmd

open Chain Function List

/-! ## Model -/

/-- The `next` pointers of the nodes, `move_free_list` and `move_count`. -/
structure Pool where
  next : Nat → Option Nat
  freeList : Option Nat
  moveCount : Nat

/-- `struct move_queue_head`. -/
structure Head where
  first : Option Nat
  last : Option Nat
  deriving DecidableEq, Repr

/-- `move_free`. -/
def moveFree (n : Nat) (p : Pool) : Pool :=
  { p with next := update p.next n p.freeList, freeList := some n }

/-- `move_alloc`; without a free node it shuts down ("Move queue overflow"). -/
def moveAlloc (p : Pool) : Option (Nat × Pool) :=
  p.freeList.map fun n => (n, { p with freeList := p.next n })

/-- `move_queue_push`, with what it returns; a null `last` is followed only when the queue is
    not empty. -/
def moveQueuePush (n : Nat) (h : Head) (p : Pool) : Option (Bool × Head × Pool) :=
  let next := update p.next n none
  match h.first with
  | some _ =>
    h.last.map fun a =>
      (false, { h with last := some n }, { p with next := update next a (some n) })
  | none => some (true, ⟨some n, some n⟩, { p with next := next })

/-- `move_queue_pop`; on an empty queue it follows a null pointer. -/
def moveQueuePop (h : Head) (p : Pool) : Option (Nat × Head) :=
  h.first.map fun n => (n, { h with first := p.next n })

/-- `move_queue_clear`. -/
def moveQueueClear (h : Head) : Head := { h with first := none }

/-- What `move_queue_setup` makes. -/
def moveQueueSetup : Head := ⟨none, none⟩

/-- `move_reset`. -/
def moveReset (p : Pool) : Pool :=
  if p.moveCount = 0 then p
  else
    let next := (List.range (p.moveCount - 1)).foldl
      (fun next i => update next i (some (i + 1))) p.next
    { p with next := update next (p.moveCount - 1) none, freeList := some 0 }

/-- The loop that frees the moves of a queue, in `stepper_stop`; `none` stands for one
    that does not end within `fuel` turns. -/
def freeQueue : Nat → Head → Pool → Option (Head × Pool)
  | 0, h, p => if h.first = none then some (h, p) else none
  | fuel + 1, h, p =>
    match moveQueuePop h p with
    | none => some (h, p)
    | some (n, h') => freeQueue fuel h' (moveFree n p)

/-! ## Places of nodes -/

/-- The chains: the free list, and the queue of each object. -/
inductive Place where
  | free
  | queue (oid : Nat)
  deriving DecidableEq, Repr

theorem Place.queue_ne_free (oid : Nat) : Place.queue oid ≠ .free := nofun

variable {p p' : Pool} {h h' : Head} {parts parts' : Place → List Nat}
  {loose q : List Nat} {n oid : Nat}

/-- The head of a queue with these nodes. -/
structure Head.Holds (h : Head) (q : List Nat) : Prop where
  first : h.first = q.head?
  last : ∀ a ∈ q.getLast?, h.last = some a

/-- Each node is on one chain, but for the `loose` ones. -/
structure Pool.Keeps (p : Pool) (parts : Place → List Nat) (loose : List Nat) : Prop where
  parted : Parted p.next (· < p.moveCount) parts loose
  free : p.freeList = (parts .free).head?

/-- The queues of all other objects are as before. -/
def Frame (oid : Nat) (parts parts' : Place → List Nat) : Prop :=
  ∀ o, o ≠ oid → parts' (.queue o) = parts (.queue o)

theorem head_holds_nil (h : Head) (hfirst : h.first = none) : h.Holds [] := ⟨hfirst, nofun⟩

/-- **ALLOCATION** takes the first free node. -/
theorem Pool.Keeps.alloc (hp : p.Keeps parts loose) (h : moveAlloc p = some (n, p')) :
    p'.moveCount = p.moveCount ∧
      ∃ l, parts .free = n :: l ∧ p'.Keeps (update parts .free l) (n :: loose) := by
  obtain ⟨n', hn', heq⟩ := Option.map_eq_some_iff.mp h
  cases heq
  obtain ⟨l, hl⟩ := head?_eq_some_iff.mp (hp.free.symm.trans hn')
  refine ⟨rfl, l, hl, hp.parted.take hl, ?_⟩
  have hlinked := hp.parted.linked .free
  rw [hl] at hlinked
  rw [update_self]
  exact hlinked.1

/-- **FREEING** puts the node in front of the free list. -/
theorem Pool.Keeps.moveFree (hp : p.Keeps parts (n :: loose)) :
    (moveFree n p).Keeps (update parts .free (n :: parts .free)) loose := by
  refine ⟨?_, ?_⟩
  · have hfront := hp.parted.putFront .free
    rw [← hp.free] at hfront
    exact hfront
  · rw [update_self]
    rfl

/-- **PUSHING** puts the node behind the queue. -/
theorem Pool.Keeps.push (hp : p.Keeps parts (n :: loose)) (hh : h.Holds (parts (.queue oid))) :
    ∃ h' p', moveQueuePush n h p = some (decide (parts (.queue oid) = []), h', p') ∧
      p'.moveCount = p.moveCount ∧ h'.Holds (parts (.queue oid) ++ [n]) ∧
      p'.Keeps (update parts (.queue oid) (parts (.queue oid) ++ [n])) loose := by
  have hback := hp.parted.putBack (.queue oid)
  have hfree : p.freeList = (update parts (.queue oid)
      (parts (.queue oid) ++ [n]) .free).head? := by
    rw [update_of_ne (Place.queue_ne_free oid).symm]
    exact hp.free
  rw [moveQueuePush, hh.first]
  cases hq : (parts (.queue oid)).getLast? with
  | none =>
    have hnil := getLast?_eq_none_iff.mp hq
    rw [hq] at hback
    rw [hnil] at hback hfree ⊢
    exact ⟨_, _, rfl, rfl, ⟨rfl, fun a ha => ha⟩, hback, hfree⟩
  | some a =>
    have hne : parts (.queue oid) ≠ [] := by
      intro hnil
      rw [hnil] at hq
      cases hq
    obtain ⟨b, l, hcons⟩ := exists_cons_of_ne_nil hne
    have hlast := hh.last a hq
    rw [hq] at hback
    rw [hcons] at hback hfree ⊢
    dsimp only [head?_cons]
    rw [hlast]
    refine ⟨_, _, rfl, rfl, ⟨rfl, fun c hc => ?_⟩, hback, hfree⟩
    rw [getLast?_append] at hc
    exact hc

/-- **POPPING** takes the first node. -/
theorem Pool.Keeps.pop (hp : p.Keeps parts loose) (hh : h.Holds (n :: q))
    (hq : parts (.queue oid) = n :: q) :
    ∃ h', moveQueuePop h p = some (n, h') ∧ h'.Holds q ∧
      p.Keeps (update parts (.queue oid) q) (n :: loose) := by
  have hlinked := hp.parted.linked (.queue oid)
  rw [hq] at hlinked
  refine ⟨{ h with first := p.next n }, ?_, ⟨hlinked.1, fun a ha => hh.last a ?_⟩,
    hp.parted.take hq, ?_⟩
  · rw [moveQueuePop, hh.first]
    rfl
  · rw [getLast?_cons, Option.mem_some_iff]
    rw [Option.mem_def] at ha
    rw [ha]
    rfl
  · rw [update_of_ne (Place.queue_ne_free oid).symm]
    exact hp.free

/-- A node is popped and freed. -/
theorem Pool.Keeps.popFree (hp : p.Keeps parts loose) (hh : h.Holds (n :: q))
    (hq : parts (.queue oid) = n :: q) :
    ∃ h' parts', moveQueuePop h p = some (n, h') ∧ h'.Holds q ∧
      (Basecmd.moveFree n p).Keeps parts' loose ∧ parts' (.queue oid) = q ∧
      Frame oid parts parts' := by
  obtain ⟨h', hpop, hh', hp'⟩ := hp.pop hh hq
  refine ⟨h', _, hpop, hh', hp'.moveFree, ?_, fun o ho => ?_⟩
  · rw [update_of_ne (Place.queue_ne_free oid), update_self]
  · rw [update_of_ne (Place.queue_ne_free o),
      update_of_ne fun heq => ho (Place.queue.inj heq)]

/-- **EMPTYING A QUEUE** frees all its nodes. -/
theorem Pool.Keeps.freeQueue {fuel : Nat} (hp : p.Keeps parts loose) (hh : h.Holds q)
    (hq : parts (.queue oid) = q) (hfuel : q.length ≤ fuel) :
    ∃ h' p' parts', freeQueue fuel h p = some (h', p') ∧ p'.moveCount = p.moveCount ∧
      h'.Holds [] ∧ p'.Keeps parts' loose ∧ parts' (.queue oid) = [] ∧ Frame oid parts parts' := by
  induction q generalizing fuel h p parts with
  | nil =>
    refine ⟨h, p, parts, ?_, rfl, hh, hp, hq, fun _ _ => rfl⟩
    cases fuel with
    | zero => exact if_pos hh.first
    | succ fuel =>
      rw [Basecmd.freeQueue, moveQueuePop, hh.first]
      rfl
  | cons n q ih =>
    cases fuel with
    | zero => exact absurd hfuel (Nat.not_succ_le_zero _)
    | succ fuel =>
      obtain ⟨h₁, parts₁, hpop, hh₁, hp₁, hq₁, hframe⟩ := hp.popFree hh hq
      obtain ⟨h', p', parts', hrest, hcount, hh', hp', hq', hframe'⟩ :=
        ih hp₁ hh₁ hq₁ (Nat.le_of_succ_le_succ hfuel)
      refine ⟨h', p', parts', ?_, hcount, hh', hp', hq', fun o ho => ?_⟩
      · rw [Basecmd.freeQueue, hpop]
        exact hrest
      · rw [hframe' o ho, hframe o ho]

/-- A queue never has more nodes than there are. -/
theorem Pool.Keeps.length_le (hp : p.Keeps parts loose) (pl : Place) :
    (parts pl).length ≤ p.moveCount := by
  have hsub : parts pl ⊆ List.range p.moveCount := fun x hx =>
    mem_range.mpr ((hp.parted.cover x).mpr (.inl ⟨pl, hx⟩))
  have hle := (subperm_of_subset (hp.parted.nodup pl) hsub).length_le
  rwa [length_range] at hle

/-! ## Starting anew -/

/-- The loop of `move_reset`. -/
theorem foldl_next (next : Nat → Option Nat) (m i : Nat) :
    (List.range m).foldl (fun next i => update next i (some (i + 1))) next i =
      if i < m then some (i + 1) else next i := by
  induction m with
  | zero => rfl
  | succ m ih =>
    rw [range_succ, foldl_append, foldl_cons, foldl_nil]
    by_cases him : i = m
    · rw [him, update_self, if_pos (Nat.lt_succ_self m)]
    · rw [update_of_ne him, ih]
      exact if_congr (by omega) rfl rfl

theorem linked_range' {next : Nat → Option Nat} {a m : Nat}
    (hnext : ∀ i, a ≤ i → i + 1 < a + m → next i = some (i + 1))
    (hlast : 0 < m → next (a + m - 1) = none) : Linked next (List.range' a m) := by
  induction m generalizing a with
  | zero => exact trivial
  | succ m ih =>
    rw [range'_succ]
    refine ⟨?_, ih (fun i hai him => hnext i (by omega) (by omega)) fun hm => ?_⟩
    · cases m with
      | zero => exact hlast Nat.one_pos
      | succ m =>
        rw [range'_succ]
        exact hnext a (le_refl a) (by omega)
    · have := hlast (Nat.succ_pos m)
      rwa [show a + (m + 1) - 1 = a + 1 + m - 1 by omega] at this

theorem linked_moveReset (hpos : p.moveCount ≠ 0) :
    Linked (moveReset p).next (List.range p.moveCount) := by
  have hnext : (moveReset p).next = update
      ((List.range (p.moveCount - 1)).foldl
        (fun next i => update next i (some (i + 1))) p.next)
      (p.moveCount - 1) none := by
    rw [moveReset, if_neg hpos]
  rw [hnext, range_eq_range' (n := p.moveCount)]
  refine linked_range' (fun i _ hi => ?_) fun _ => ?_
  · rw [update_of_ne (by omega), foldl_next, if_pos (by omega)]
  · rw [zero_add, update_self]

/-- **RESET**: whatever was before, all nodes are free. -/
theorem moveReset_keeps (p : Pool) (hempty : p.moveCount = 0 → p.freeList = none) :
    (moveReset p).moveCount = p.moveCount ∧
      (moveReset p).Keeps (update (fun _ => []) .free (List.range p.moveCount)) [] := by
  have hcount : (moveReset p).moveCount = p.moveCount := by
    rw [moveReset]
    split
    · rfl
    · rfl
  have hshared := @shared_single Nat Place (List.range p.moveCount) .free _ nodup_range
  have hall : (· ∈ List.range p.moveCount) = (· < (moveReset p).moveCount) := by
    funext x
    rw [hcount, mem_range]
  rw [hall] at hshared
  refine ⟨hcount, ⟨hshared, forall_update_parts ?_ fun _ _ => trivial⟩, ?_⟩
  · by_cases hzero : p.moveCount = 0
    · rw [hzero]
      exact trivial
    · exact linked_moveReset hzero
  · rw [update_self, moveReset, head?_range]
    by_cases hzero : p.moveCount = 0
    · rw [if_pos hzero, if_pos hzero, hempty hzero]
    · rw [if_neg hzero, if_neg hzero]

end Basecmd
