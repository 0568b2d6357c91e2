import Pick.MinHeapProofs
import Pick.RunProofs
import Pick.SlotProofs

/-! # Sharing the firmware's move queue

Model of `klippy/chelper/steppersync.c`.  The firmware has a fixed number of
places for moves.  `steppersync_flush` merges the message queues of all
steppers by request clock and gives each move message a minimum transmit
clock, from a heap of the clocks at which places become free. -/

namespace Steppersync

open MinHeap Option
open List hiding elem

/-! ## Model -/

/-- `uint64_t`; its top is `UINT64_MAX`. -/
abbrev Clock := Fin (2 ^ 64)

/-- `MAX_CLOCK`. -/
def maxClock : Clock := 0x7fffffffffffffff

/-- `struct queue_message`.  Until it is handed over, a `minClock` other than zero says that the
    message uses the move queue, and when its place becomes free again. -/
structure QueueMessage (α : Type) where
  msg : α
  minClock : Clock
  reqClock : Clock
  deriving DecidableEq

/-- A message handed to the serial queue: its stepper, itself as queued, and its minimum
    transmit clock. -/
structure Sent (α : Type) where
  stepper : Nat
  qm : QueueMessage α
  minClock : Clock
  deriving DecidableEq

variable {α : Type}

/-- `struct steppersync`, with the message queues of its steppers and all that
    it has handed over. -/
structure State (α : Type) where
  queues : List (List (QueueMessage α))
  moveClocks : List Clock
  handed : List (Sent α)

/-- `mc[pos] = clock`, which fails outside the array. -/
def write (mc : List Clock) (pos : Nat) (clock : Clock) : Option (List Clock) :=
  if pos < mc.length then some (mc.set pos clock) else none

/-- The loop of `heap_replace`; `turns` bounds it.  A child is read only if it is there. -/
def heapReplaceLoop (reqClock : Clock) :
    Nat → Nat → List Clock → Option (List Clock)
  | 0, _, _ => none
  | turns + 1, pos, mc =>
    let child1Pos := 2 * pos + 1
    let child2Pos := 2 * pos + 2
    let child2Clock := mc.getD child2Pos ⊤
    let child1Clock := mc.getD child1Pos ⊤
    if reqClock ≤ child1Clock ∧ reqClock ≤ child2Clock then write mc pos reqClock
    else if child1Clock < child2Clock then
      (write mc pos child1Clock).bind (heapReplaceLoop reqClock turns child1Pos)
    else (write mc pos child2Clock).bind (heapReplaceLoop reqClock turns child2Pos)

/-- `heap_replace`. -/
def heapReplace (reqClock : Clock) (mc : List Clock) : Option (List Clock) :=
  heapReplaceLoop reqClock mc.length 0 mc

/-- The search for the message with the lowest `reqClock`; `i` is the stepper
    whose queue is next. -/
def findLowest (best : Option (Nat × QueueMessage α)) (reqClock : Clock) :
    Nat → List (List (QueueMessage α)) → Option (Nat × QueueMessage α)
  | _, [] => best
  | i, [] :: queues => findLowest best reqClock (i + 1) queues
  | i, (m :: _) :: queues =>
    if m.reqClock < reqClock then
      findLowest (some (i, m)) m.reqClock (i + 1) queues
    else findLowest best reqClock (i + 1) queues

/-- The message a turn of `steppersync_flush` hands over, unless it is the last. -/
def State.next (s : State α) (moveClock : Clock) : Option (Nat × QueueMessage α) :=
  match findLowest none maxClock 0 s.queues with
  | none => none
  | some (i, qm) => if qm.minClock ≠ 0 ∧ qm.reqClock > moveClock then none else some (i, qm)

/-- The heap after a message: only a move takes a place. -/
def updateClocks (minClock : Clock) (mc : List Clock) : Option (List Clock) :=
  if minClock ≠ 0 then heapReplace minClock mc else some mc

/-- The rest of the turn.  Without places there is no `move_clocks[0]`. -/
def State.emit (s : State α) (i : Nat) (qm : QueueMessage α) :
    Option (State α) := do
  let nextAvail ← s.moveClocks.head?
  let moveClocks ← updateClocks qm.minClock s.moveClocks
  some {
    queues := s.queues.modify i List.tail
    moveClocks := moveClocks
    handed := s.handed ++ [⟨i, qm, nextAvail⟩] }

/-- The loop of `steppersync_flush`; `turns` bounds it. -/
def flushLoop (moveClock : Clock) : Nat → State α → Option (State α)
  | 0, _ => none
  | turns + 1, s =>
    match s.next moveClock with
    | none => some s
    | some (i, qm) => (s.emit i qm).bind (flushLoop moveClock turns)

/-- How many messages are queued. -/
def State.pending (s : State α) : Nat := (s.queues.map List.length).sum

/-- `steppersync_flush`.  The batch it sends is what it adds to `handed`. -/
def flush (moveClock : Clock) (s : State α) : Option (State α) :=
  flushLoop moveClock (s.pending + 1) s

/-- What happens to a `steppersync`: a stepper queues a message, or the queues are flushed. -/
inductive Op (α : Type) where
  | queue (i : Nat) (qm : QueueMessage α)
  | flush (moveClock : Clock)

/-- One operation. -/
def State.op (s : State α) : Op α → Option (State α)
  | .queue i qm => some { s with queues := s.queues.modify i (· ++ [qm]) }
  | .flush moveClock => Steppersync.flush moveClock s

/-- `steppersync_alloc`. -/
def alloc (scNum moveNum : Nat) : State α where
  queues := List.replicate scNum []
  moveClocks := List.replicate moveNum 0
  handed := []

/-- A run of operations. -/
def State.run (s : State α) (ops : List (Op α)) : Option (State α) := ops.foldlM State.op s

/-- The messages that have left the command queue by `t`, in order, each not before its minimum
    clock. -/
def ready (t : Clock) (handed : List (Sent α)) : List (Sent α) := handed.takeWhile (·.minClock ≤ t)

/-! ## The heap of clocks -/

section Heap

variable {mc : List Clock} {reqClock : Clock}

theorem heapReplaceLoop_spec {turns : Nat} :
    ∀ {pos : Nat} {mc : List Clock}, Hole mc pos reqClock → mc.length ≤ turns + pos →
      ∃ mc', heapReplaceLoop reqClock turns pos mc = some mc' ∧ IsHeap mc' ∧
        mc'.Perm (mc.set pos reqClock) := by
  induction turns with
  | zero =>
    intro pos mc h hlen
    have hlt := h.lt
    omega
  | succ turns ih =>
    intro pos mc h hlen
    have hwrite (clock : Clock) : write mc pos clock = some (mc.set pos clock) := if_pos h.lt
    rw [heapReplaceLoop]
    simp only [hwrite, bind_some]
    -- the smaller child moves up, and the loop goes on in its place
    have hdown : ∀ c, c = 2 * pos + 1 ∨ c = 2 * pos + 2 → elem mc c < reqClock →
        elem mc c ≤ elem mc (2 * pos + 1) → elem mc c ≤ elem mc (2 * pos + 2) →
        ∃ mc', heapReplaceLoop reqClock turns c (mc.set pos (elem mc c)) = some mc' ∧ IsHeap mc' ∧
          mc'.Perm (mc.set pos reqClock) := by
      intro c hchild hlt hleft hright
      obtain ⟨hhole, hsame⟩ := h.down hchild hlt hleft hright
      obtain ⟨mc', hloop, hheap, hperm⟩ := ih hhole (by rw [length_set]; omega)
      exact ⟨mc', hloop, hheap, hperm.trans hsame⟩
    split
    · rename_i hle
      exact ⟨_, rfl, h.fill hle.1 hle.2, Perm.refl _⟩
    · rename_i hnot
      split
      · rename_i hlt
        refine hdown _ (.inl rfl) ?_ le_rfl hlt.le
        by_contra hge
        exact hnot ⟨not_lt.mp hge, (not_lt.mp hge).trans hlt.le⟩
      · rename_i hge
        have hle := not_lt.mp hge
        refine hdown _ (.inr rfl) ?_ hle le_rfl
        by_contra hge'
        exact hnot ⟨(not_lt.mp hge').trans hle, not_lt.mp hge'⟩

/-- `heap_replace` stops, and replaces a smallest clock. -/
theorem heapReplace_spec (reqClock : Clock) (h : IsHeap mc) (hne : mc ≠ []) :
    ∃ mc', heapReplace reqClock mc = some mc' ∧ IsHeap mc' ∧ (mc' : Multiset Clock)
        = reqClock ::ₘ (mc : Multiset Clock).erase (elem mc 0) := by
  obtain ⟨mc', hloop, hheap, hperm⟩ := heapReplaceLoop_spec (h.hole hne reqClock) (le_refl _)
  refine ⟨mc', hloop, hheap, ?_⟩
  cases mc with
  | nil => exact absurd rfl hne
  | cons c mc =>
    rw [Multiset.coe_eq_coe.mpr hperm, set_cons_zero, ← Multiset.cons_coe, ← Multiset.cons_coe]
    exact congrArg _ (Multiset.erase_cons_head c _).symm

/-- **`heap_replace` REPLACES A MINIMUM**, in a heap of at least one clock.  It stops
    within as many turns as there are clocks, and writes to no place outside the array. -/
theorem heapReplace_replaces_minimum (reqClock : Clock) (h : IsHeap mc) (hne : mc ≠ []) :
    ∃ mc' least, heapReplace reqClock mc = some mc' ∧ IsHeap mc' ∧
      least ∈ mc ∧ (∀ c ∈ mc, least ≤ c) ∧
      (mc' : Multiset Clock) = reqClock ::ₘ (mc : Multiset Clock).erase least := by
  obtain ⟨mc', hreplace, hheap, hcontents⟩ := heapReplace_spec reqClock h hne
  refine ⟨mc', elem mc 0, hreplace, hheap, ?_, fun c hc => h.root_le hc, hcontents⟩
  rw [elem_of_lt (length_pos_of_ne_nil hne)]
  exact getElem_mem _

theorem heapReplace_replaces_minimum_five : ∃ mc' least,
    heapReplace 9 [2, 3, 7, 8, 4] = some mc' ∧ IsHeap mc' ∧
      least ∈ [2, 3, 7, 8, 4] ∧ (∀ c ∈ [2, 3, 7, 8, 4], least ≤ c) ∧
      (mc' : Multiset Clock) =
        9 ::ₘ (([2, 3, 7, 8, 4] : List Clock) : Multiset Clock).erase least :=
  heapReplace_replaces_minimum 9 (isHeap_of_lt (by decide)) (cons_ne_nil _ _)

end Heap

/-! ## The lowest message -/

variable {s s' : State α} {moveClock : Clock} {i : Nat}
  {qm : QueueMessage α} {queues : List (List (QueueMessage α))}

/-- What the search finds is the best so far or the first message of a queue,
    and no queue's first message is lower. -/
theorem findLowest_spec :
    ∀ {best : Option (Nat × QueueMessage α)} {reqClock : Clock} {i j : Nat},
      (∀ p ∈ best, p.2.reqClock = reqClock) → findLowest best reqClock i queues = some (j, qm) →
      (best = some (j, qm) ∨ ∃ k tl, j = i + k ∧ queues[k]? = some (qm :: tl)) ∧
      qm.reqClock ≤ reqClock ∧ ∀ q ∈ queues, ∀ m ∈ q.head?, qm.reqClock ≤ m.reqClock := by
  intro best reqClock i j hbest h
  have hlater : ∀ {q : List (QueueMessage α)} {queues i},
      (∃ k tl, j = i + 1 + k ∧ queues[k]? = some (qm :: tl)) →
      ∃ k tl, j = i + k ∧ (q :: queues)[k]? = some (qm :: tl) := by
    rintro q queues i ⟨k, tl, rfl, hk⟩
    exact ⟨k + 1, tl, by omega, hk⟩
  have hhead : ∀ {m : QueueMessage α} {tl m'}, m' ∈ (m :: tl).head? → m' = m :=
    fun hm' => (some.inj hm').symm
  fun_induction findLowest best reqClock i queues with
  | case1 best reqClock i => exact ⟨.inl h, (hbest _ h).le, nofun⟩
  | case2 best reqClock i queues ih =>
    obtain ⟨hfound, hle, hall⟩ := ih hbest h
    exact ⟨hfound.imp_right hlater, hle, forall_mem_cons.mpr ⟨nofun, hall⟩⟩
  | case3 best reqClock i m tl queues hlt ih =>
    obtain ⟨hfound, hle, hall⟩ := ih (fun p hp => by rw [← some.inj hp]) h
    refine ⟨.inr (hfound.elim (fun hsome => ?_) hlater), hle.trans hlt.le,
      forall_mem_cons.mpr ⟨fun m' hm' => hhead hm' ▸ hle, hall⟩⟩
    cases hsome
    exact ⟨0, tl, rfl, rfl⟩
  | case4 best reqClock i m tl queues hge ih =>
    obtain ⟨hfound, hle, hall⟩ := ih hbest h
    exact ⟨hfound.imp_right hlater, hle, forall_mem_cons.mpr
      ⟨fun m' hm' => hhead hm' ▸ hle.trans (not_lt.mp hge), hall⟩⟩

/-- A turn takes the first message of a queue, and none is lower. -/
theorem next_spec (h : s.next moveClock = some (i, qm)) :
    (∃ tl, s.queues[i]? = some (qm :: tl)) ∧
      ∀ q ∈ s.queues, ∀ m ∈ q.head?, qm.reqClock ≤ m.reqClock := by
  rw [State.next] at h
  split at h
  · cases h
  · rename_i j m hfound
    split at h
    · cases h
    · cases h
      obtain ⟨hin, -, hall⟩ := findLowest_spec
        (fun p hp => absurd hp (not_mem_none p)) hfound
      rcases hin with hnone | ⟨k, tl, hk, hq⟩
      · cases hnone
      · rw [zero_add] at hk
        rw [hk]
        exact ⟨⟨tl, hq⟩, hall⟩

/-! ## One turn -/

/-- The message uses the move queue. -/
def Sent.usesMoveQueue (x : Sent α) : Bool := x.qm.minClock ≠ 0

/-- What it takes: a place that was free from its minimum clock on, until the
    clock it was queued with. -/
def Sent.grant (x : Sent α) : Slots.Grant Clock := ⟨x.minClock, x.qm.minClock⟩

/-- The places taken by messages, in the order in which they are handed over. -/
def grants (handed : List (Sent α)) : List (Slots.Grant Clock) :=
  (handed.filter Sent.usesMoveQueue).map Sent.grant

/-- The clocks are a heap of `n` places, and what the messages that have been
    handed over leave of them. -/
structure Shares (n : Nat) (s : State α) : Prop where
  heap : IsHeap s.moveClocks
  length : s.moveClocks.length = n
  uses : Slots.Uses (s.moveClocks : Multiset Clock) (grants s.handed)

theorem grants_append (handed handed' : List (Sent α)) :
    grants (handed ++ handed') = grants handed ++ grants handed' := by
  rw [grants, filter_append, map_append]
  rfl

theorem grants_singleton (x : Sent α) :
    grants [x] = if x.qm.minClock = 0 then [] else [x.grant] := by
  rw [grants, filter_singleton, Sent.usesMoveQueue]
  by_cases hmove : x.qm.minClock = 0
  · simp [hmove]
  · simp [hmove]

/-- **A TURN** of `steppersync_flush`: it can be made, and keeps the places. -/
theorem Shares.emit {n : Nat} (h : Shares n s) (hn : 0 < n) (i : Nat)
    (qm : QueueMessage α) : ∃ s', s.emit i qm = some s' ∧ Shares n s' := by
  have hne : s.moveClocks ≠ [] := by
    rw [← length_pos_iff, h.length]
    exact hn
  obtain ⟨c, mc, hmc⟩ := exists_cons_of_ne_nil hne
  have hroot : elem s.moveClocks 0 = c := by
    rw [hmc]
    rfl
  have hhead : s.moveClocks.head? = some c := by
    rw [hmc]
    rfl
  have hmem : c ∈ (s.moveClocks : Multiset Clock) := by
    rw [hmc]
    exact Multiset.mem_coe.mpr mem_cons_self
  rw [State.emit, hhead, updateClocks]
  by_cases hmove : qm.minClock = 0
  · -- no place is taken
    rw [if_neg (not_not.mpr hmove)]
    refine ⟨_, rfl, h.heap, h.length, ?_⟩
    show Slots.Uses _ (grants (s.handed ++ [⟨i, qm, c⟩]))
    rw [grants_append, grants_singleton, if_pos hmove, append_nil]
    exact h.uses
  · rw [if_pos hmove]
    obtain ⟨mc', hreplace, hheap, hcontents⟩ := heapReplace_spec qm.minClock h.heap hne
    rw [hreplace]
    rw [hroot] at hcontents
    refine ⟨_, rfl, hheap, ?_, ?_⟩
    · have hcard := congrArg Multiset.card hcontents
      rwa [Slots.Uses.card_eq hmem, Multiset.coe_card, Multiset.coe_card, h.length] at hcard
    · show Slots.Uses (mc' : Multiset Clock) (grants (s.handed ++ [⟨i, qm, c⟩]))
      rw [grants_append, grants_singleton, if_neg hmove, hcontents]
      refine Slots.Uses.grant (g := ⟨c, qm.minClock⟩) h.uses hmem ?_
      intro x hx
      show c ≤ x
      rw [← hroot]
      exact h.heap.root_le (Multiset.mem_coe.mp hx)

/-- All that a turn does. -/
theorem emit_eq (h : s.emit i qm = some s') :
    ∃ nextAvail, s'.queues = s.queues.modify i List.tail ∧
      s'.handed = s.handed ++ [⟨i, qm, nextAvail⟩] := by
  rw [State.emit] at h
  obtain ⟨nextAvail, -, h⟩ := bind_eq_some_iff.mp h
  obtain ⟨moveClocks, -, h⟩ := bind_eq_some_iff.mp h
  cases h
  exact ⟨nextAvail, rfl, rfl⟩

/-! ## A flush -/

/-- What every turn keeps holds after a flush. -/
theorem flush_invariant {I : State α → Prop}
    (hturn : ∀ s i qm s', I s → s.next moveClock = some (i, qm) →
      s.emit i qm = some s' → I s')
    (hs : I s) (h : flush moveClock s = some s') : I s' := by
  rw [flush] at h
  generalize s.pending + 1 = turns at h
  induction turns generalizing s with
  | zero => exact nomatch h
  | succ turns ih =>
    rw [flushLoop] at h
    split at h
    · cases h
      exact hs
    · rename_i i qm hnext
      obtain ⟨s₁, hemit, hrest⟩ := bind_eq_some_iff.mp h
      exact ih (hturn s i qm s₁ hs hnext hemit) hrest

/-- A turn takes one message from the queues. -/
theorem pending_modify_tail {tl : List (QueueMessage α)} (h : queues[i]? = some (qm :: tl)) :
    ((queues.modify i List.tail).map List.length).sum + 1 = (queues.map List.length).sum := by
  induction queues generalizing i with
  | nil => exact nomatch h
  | cons q queues ih =>
    cases i with
    | zero =>
      cases h
      rw [modify_zero_cons, map_cons, sum_cons,
        map_cons, sum_cons, tail_cons, length_cons]
      omega
    | succ i =>
      rw [modify_succ_cons, map_cons, sum_cons, map_cons, sum_cons, ← ih h]
      omega

/-- **A FLUSH ENDS**, if there is a place at all. -/
theorem flush_total {n : Nat} (h : Shares n s) (hn : 0 < n) :
    ∃ s', flush moveClock s = some s' := by
  rw [flush]
  have hturns : ∀ {turns : Nat} {s : State α}, Shares n s →
      s.pending < turns → ∃ s', flushLoop moveClock turns s = some s' := by
    intro turns
    induction turns with
    | zero => exact fun _ hlt => absurd hlt (Nat.not_lt_zero _)
    | succ turns ih =>
      intro s h hlt
      rw [flushLoop]
      split
      · exact ⟨s, rfl⟩
      · rename_i i qm hnext
        obtain ⟨s₁, hemit, h₁⟩ := h.emit hn i qm
        obtain ⟨⟨tl, hq⟩, -⟩ := next_spec hnext
        obtain ⟨nextAvail, hqueues, -⟩ := emit_eq hemit
        have hpending : s₁.pending + 1 = s.pending := by
          rw [State.pending, hqueues]
          exact pending_modify_tail hq
        rw [hemit]
        exact ih h₁ (by omega)
  exact hturns h (Nat.lt_succ_self _)

/-- The messages of one stepper that have been handed over. -/
def sentBy (i : Nat) (handed : List (Sent α)) : List (QueueMessage α) :=
  (handed.filter (·.stepper = i)).map Sent.qm

/-- The messages of one stepper, handed over or queued. -/
def State.messagesOf (s : State α) (i : Nat) : List (QueueMessage α) :=
  sentBy i s.handed ++ s.queues.getD i []

theorem sentBy_append (i : Nat) (handed handed' : List (Sent α)) :
    sentBy i (handed ++ handed') = sentBy i handed ++ sentBy i handed' := by
  rw [sentBy, filter_append, map_append]
  rfl

/-- A turn moves a message from the front of its queue behind those handed over. -/
theorem messagesOf_emit (hnext : s.next moveClock = some (i, qm))
    (hemit : s.emit i qm = some s') (j : Nat) : s'.messagesOf j = s.messagesOf j := by
  obtain ⟨⟨tl, hq⟩, -⟩ := next_spec hnext
  obtain ⟨nextAvail, hqueues, hhanded⟩ := emit_eq hemit
  rw [State.messagesOf, State.messagesOf, hhanded, hqueues, sentBy_append, append_assoc]
  congr 1
  rw [getD_eq_getElem?_getD, getD_eq_getElem?_getD]
  by_cases hij : i = j
  · subst hij
    rw [getElem?_modify_eq, hq, sentBy, filter_cons_of_pos (by simp)]
    rfl
  · rw [getElem?_modify_ne _ _ hij, sentBy, filter_cons_of_neg (by simpa using hij)]
    rfl

/-- A queue in the order of its request clocks. -/
def InOrder (q : List (QueueMessage α)) : Prop := q.Pairwise (·.reqClock ≤ ·.reqClock)

/-- The batch so far is in order, and the queues are, behind it. -/
structure Merging (old : List (Sent α)) (s : State α) (batch : List (Sent α)) : Prop where
  handed : s.handed = old ++ batch
  sorted : batch.Pairwise (·.qm.reqClock ≤ ·.qm.reqClock)
  queues : ∀ q ∈ s.queues, InOrder q
  behind : ∀ x ∈ batch, ∀ q ∈ s.queues, ∀ m ∈ q, x.qm.reqClock ≤ m.reqClock

/-- The first message of a queue in order is the lowest. -/
theorem InOrder.le_of_head {q : List (QueueMessage α)} {c : Clock}
    (h : InOrder q) (hhead : ∀ m ∈ q.head?, c ≤ m.reqClock) : ∀ m ∈ q, c ≤ m.reqClock := by
  cases q with
  | nil => exact nofun
  | cons m₀ q =>
    have hm₀ := hhead m₀ rfl
    exact forall_mem_cons.mpr ⟨hm₀, fun m hm => hm₀.trans ((pairwise_cons.mp h).1 m hm)⟩

/-- The queues of a turn are what is left of those before. -/
theorem mem_modify_tail {q : List (QueueMessage α)} (h : q ∈ queues.modify i List.tail) :
    ∃ q₀ ∈ queues, q <:+ q₀ := by
  obtain ⟨j, hj⟩ := mem_iff_getElem?.mp h
  rw [getElem?_modify] at hj
  obtain ⟨q₀, hq₀, rfl⟩ := map_eq_some_iff.mp hj
  refine ⟨q₀, mem_of_getElem? hq₀, ?_⟩
  split
  · exact tail_suffix q₀
  · exact suffix_refl q₀

theorem Merging.emit {old batch : List (Sent α)} (h : Merging old s batch)
    (hnext : s.next moveClock = some (i, qm))
    (hemit : s.emit i qm = some s') : ∃ batch', Merging old s' batch' := by
  obtain ⟨⟨tl, hq⟩, hlow⟩ := next_spec hnext
  obtain ⟨nextAvail, hqueues, hhanded⟩ := emit_eq hemit
  have hmem : (qm :: tl) ∈ s.queues := mem_of_getElem? hq
  -- no message that is left is lower than this one
  have hle : ∀ q ∈ s.queues, ∀ m ∈ q, qm.reqClock ≤ m.reqClock :=
    fun q hq => (h.queues q hq).le_of_head (hlow q hq)
  refine ⟨batch ++ [⟨i, qm, nextAvail⟩], ?_, ?_, ?_, ?_⟩
  · rw [hhanded, h.handed, append_assoc]
  · refine pairwise_append.mpr ⟨h.sorted, pairwise_singleton _ _, ?_⟩
    intro x hx y hy
    rw [mem_singleton.mp hy]
    exact h.behind x hx _ hmem qm mem_cons_self
  · intro q hq'
    rw [hqueues] at hq'
    obtain ⟨q₀, hq₀, hsuf⟩ := mem_modify_tail hq'
    exact (h.queues q₀ hq₀).sublist hsuf.sublist
  · intro x hx q hq' m hm
    rw [hqueues] at hq'
    obtain ⟨q₀, hq₀, hsuf⟩ := mem_modify_tail hq'
    rcases mem_append.mp hx with hx | hx
    · exact h.behind x hx q₀ hq₀ m (hsuf.subset hm)
    · rw [mem_singleton.mp hx]
      exact hle q₀ hq₀ m (hsuf.subset hm)

/-- A flush of queues in order sends a batch in order. -/
theorem flush_inOrder (hq : ∀ q ∈ s.queues, InOrder q) (h : flush moveClock s = some s') :
    ∃ batch, s'.handed = s.handed ++ batch ∧ batch.Pairwise (·.qm.reqClock ≤ ·.qm.reqClock) := by
  have hstart : Merging s.handed s [] := ⟨(append_nil _).symm, .nil, hq, nofun⟩
  obtain ⟨batch, hmerging⟩ :=
    flush_invariant (I := fun s₁ => ∃ batch, Merging s.handed s₁ batch)
      (fun _ _ _ _ ⟨_, hm⟩ hnext hemit => hm.emit hnext hemit)
      ⟨[], hstart⟩ h
  exact ⟨batch, hmerging.handed, hmerging.sorted⟩

/-! ## Runs -/

variable {n : Nat} {ops : List (Op α)}

theorem Shares.of_emit (h : Shares n s) (hemit : s.emit i qm = some s') : Shares n s' := by
  have hn : 0 < n := by
    rw [← h.length, length_pos_iff]
    intro hnil
    rw [State.emit, hnil] at hemit
    cases hemit
  obtain ⟨s₁, hemit₁, h₁⟩ := h.emit hn i qm
  rw [hemit] at hemit₁
  rwa [some.inj hemit₁]

theorem Shares.flush (h : Shares n s) (hflush : flush moveClock s = some s') : Shares n s' :=
  flush_invariant (I := Shares n) (fun _ _ _ _ h _ hemit => h.of_emit hemit) h hflush

theorem shares_alloc (scNum moveNum : Nat) : Shares moveNum (alloc scNum moveNum : State α) := by
  refine ⟨isHeap_of_lt fun i hi => ?_, length_replicate, .none _⟩
  have hparent : parent i ≤ i := by
    rw [parent]
    omega
  rw [elem_of_lt hi, elem_of_lt (hparent.trans_lt hi)]
  exact (getElem_replicate _).trans_le (getElem_replicate _).ge

/-- The messages a stepper has queued in a run. -/
def queuedBy (i : Nat) : List (Op α) → List (QueueMessage α)
  | [] => []
  | .queue j qm :: ops => if j = i then qm :: queuedBy i ops else queuedBy i ops
  | .flush _ :: ops => queuedBy i ops

theorem length_queues_emit (hemit : s.emit i qm = some s') :
    s'.queues.length = s.queues.length := by
  obtain ⟨-, hqueues, -⟩ := emit_eq hemit
  rw [hqueues, length_modify]

/-- A flush keeps each stepper's messages and their order. -/
theorem flush_messagesOf (h : Steppersync.flush moveClock s = some s') :
    s'.queues.length = s.queues.length ∧ ∀ j, s'.messagesOf j = s.messagesOf j :=
  flush_invariant (s := s)
    (I := fun s₁ => s₁.queues.length = s.queues.length ∧ ∀ j, s₁.messagesOf j = s.messagesOf j)
    (fun _ _ _ _ ⟨hlen, hmsgs⟩ hnext hemit =>
      ⟨(length_queues_emit hemit).trans hlen,
        fun j => (messagesOf_emit hnext hemit j).trans (hmsgs j)⟩)
    ⟨rfl, fun _ => rfl⟩ h

/-- **RUNS** share the places, and keep the order of each stepper. -/
theorem run_spec (hs : Shares n s) (h : s.run ops = some s') :
    Shares n s' ∧ ∀ i < s.queues.length, s'.messagesOf i = s.messagesOf i ++ queuedBy i ops := by
  induction ops generalizing s with
  | nil =>
    cases h
    exact ⟨hs, fun i _ => (append_nil _).symm⟩
  | cons op ops ih =>
    rw [State.run, foldlM_cons] at h
    obtain ⟨s₁, hop, hrest⟩ := bind_eq_some_iff.mp h
    cases op with
    | queue j qm =>
      cases hop
      obtain ⟨hs', hmsgs⟩ := ih (s := { s with
        queues := s.queues.modify j (· ++ [qm]) })
        { hs with } hrest
      refine ⟨hs', fun i hi => ?_⟩
      rw [hmsgs i (by rwa [length_modify]), State.messagesOf,
        State.messagesOf, append_assoc, append_assoc, queuedBy,
        getD_eq_getElem?_getD, getD_eq_getElem?_getD]
      by_cases hji : j = i
      · subst hji
        rw [if_pos rfl, getElem?_modify_eq, getElem?_eq_getElem hi]
        simp
      · rw [if_neg hji, getElem?_modify_ne _ _ hji]
    | flush moveClock =>
      obtain ⟨hlen, hsame⟩ := flush_messagesOf hop
      obtain ⟨hs', hmsgs⟩ := ih (hs.flush hop) hrest
      refine ⟨hs', fun i hi => ?_⟩
      rw [hmsgs i (by rwa [hlen]), hsame i]
      rfl

/-- What has left the command queue, of the messages that take a place. -/
theorem grants_ready (t : Clock) (handed : List (Sent α)) :
    grants (ready t handed) <+: grants handed ∧ ∀ g ∈ grants (ready t handed), g.free ≤ t := by
  refine ⟨((List.takeWhile_prefix _).filter _).map _, ?_⟩
  intro g hg
  obtain ⟨x, hx, rfl⟩ := mem_map.mp hg
  have hle := mem_takeWhile_imp (mem_of_mem_filter hx)
  exact of_decide_eq_true hle

theorem countP_grants (p : Slots.Grant Clock → Prop) [DecidablePred p] (handed : List (Sent α)) :
    (grants handed).countP p = handed.countP (fun x => x.qm.minClock ≠ 0 ∧ p x.grant) := by
  rw [grants, countP_map, countP_filter]
  congr 1
  funext x
  simp [Sent.usesMoveQueue, Bool.and_comm]

/-- **THE MOVE QUEUE IS NOT OVERCOMMITTED**: no more messages that have left hold a place than
    there are places, by the minimum clocks alone if none frees its place before its own.  Each
    stepper's messages leave in order, and every flush ends. -/
theorem moveQueue_not_overcommitted {scNum moveNum : Nat}
    (h : (alloc scNum moveNum : State α).run ops = some s) :
    (∀ t, (ready t s.handed).countP
        (fun x => x.qm.minClock ≠ 0 ∧ t < x.qm.minClock) ≤ moveNum) ∧
      ((∀ x ∈ s.handed, x.qm.minClock ≠ 0 → x.minClock ≤ x.qm.minClock) →
        ∀ t, s.handed.countP (fun x => x.qm.minClock ≠ 0 ∧ x.minClock ≤ t ∧
          t < x.qm.minClock) ≤ moveNum) ∧
      (∀ i < scNum, sentBy i s.handed ++ s.queues.getD i [] = queuedBy i ops) ∧
      (∀ moveClock s', (∀ q ∈ s.queues, InOrder q) →
        flush moveClock s = some s' → ∃ batch, s'.handed = s.handed ++ batch ∧
          batch.Pairwise (·.qm.reqClock ≤ ·.qm.reqClock)) ∧
      (0 < moveNum → ∀ moveClock, ∃ s', flush moveClock s = some s') := by
  obtain ⟨hshares, hmsgs⟩ := run_spec (shares_alloc scNum moveNum) h
  have hcard : (s.moveClocks : Multiset Clock).card = moveNum := by
    rw [Multiset.coe_card, hshares.length]
  refine ⟨?_, ?_, ?_, ?_, ?_⟩
  · intro t
    obtain ⟨hpre, hfree⟩ := grants_ready t s.handed
    have hle := hshares.uses.begun_le hpre hfree
    rw [hcard, countP_grants] at hle
    exact hle
  · intro hend t
    have hle := hshares.uses.active_le (t := t) fun g hg => by
      obtain ⟨x, hx, rfl⟩ := mem_map.mp hg
      obtain ⟨hx, huses⟩ := mem_filter.mp hx
      exact hend x hx (of_decide_eq_true huses)
    rw [hcard, countP_grants] at hle
    exact hle
  · intro i hi
    have hall := hmsgs i (by rwa [alloc, length_replicate])
    have hnone : (alloc scNum moveNum : State α).messagesOf i = [] := by
      rw [State.messagesOf, alloc, getD_replicate _ hi]
      rfl
    rwa [hnone, nil_append] at hall
  · exact fun moveClock s' hq hflush => flush_inOrder hq hflush
  · exact fun hn moveClock => flush_total hshares hn

/-- Two moves on one place. -/
theorem moveQueue_not_overcommitted_two :
    ∃ s : State Unit, (alloc 1 1 : State Unit).run
        [.queue 0 ⟨(), 50, 50⟩, .queue 0 ⟨(), 120, 120⟩, .flush 1000] = some s ∧
      s.handed = [⟨0, ⟨(), 50, 50⟩, 0⟩, ⟨0, ⟨(), 120, 120⟩, 50⟩] ∧
      ∀ t, (ready t s.handed).countP (fun x => x.qm.minClock ≠ 0 ∧ t < x.qm.minClock) ≤ 1 := by
  refine Result.exists_some_and_of_any (by decide +kernel) fun s hs => ?_
  exact (moveQueue_not_overcommitted hs).1

/-- **CLOCKS CAN GO BACK**: a far step frees its place at the clock of the step before it.  With
    one place, the next message then gets a minimum clock at which the place is still held. -/
theorem minClock_goes_back :
    ∃ s : State Unit, (alloc 2 1 : State Unit).run
        [.queue 0 ⟨(), 50, 50⟩, .queue 1 ⟨(), 10, 805306378⟩,
          .queue 0 ⟨(), 900000000, 900000000⟩, .flush 2000000000] = some s ∧
      ¬ s.handed.countP (fun x => x.qm.minClock ≠ 0 ∧ x.minClock ≤ 20 ∧
        20 < x.qm.minClock) ≤ 1 := by
  exact Result.exists_some_of_any (by decide +kernel)

end Steppersync
