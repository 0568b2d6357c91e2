import Pick.SerialqueueProofs

/-! # What the command queues hold

The lists and counters that `serialqueue_send_batch`, `check_send_command` and
`build_and_send_command` work on.  A message moves from `upcoming_queue` to
`ready_queue` and from there into a block; what waits in a queue is the two lists
behind each other, so only the last of these moves takes something away from it,
and always its first message. -/

namespace Serialqueue

open List Msgblock

/-! ## Waiting messages -/

/-- The messages that wait in a queue, in the order in which they were added. -/
def CommandQueue.waiting (q : CommandQueue) : List QueueMessage := q.readyQueue ++ q.upcomingQueue

/-- The messages that wait in the queue `cq`. -/
def waitingOf (qs : List CommandQueue) (cq : ℕ) : List QueueMessage :=
  qs.flatMap fun q => if q.id = cq then q.waiting else []

@[simp] theorem waitingOf_nil (cq : ℕ) : waitingOf [] cq = [] := rfl

@[simp] theorem waitingOf_cons (q : CommandQueue) (qs : List CommandQueue) (cq : ℕ) :
    waitingOf (q :: qs) cq = (if q.id = cq then q.waiting else []) ++ waitingOf qs cq :=
  rfl

@[simp] theorem waitingOf_append (qs qs' : List CommandQueue) (cq : ℕ) :
    waitingOf (qs ++ qs') cq = waitingOf qs cq ++ waitingOf qs' cq :=
  flatMap_append

variable {qs : List CommandQueue} {sq : Serialqueue}

theorem waitingOf_eq_nil {cq : ℕ} (h : cq ∉ qs.map CommandQueue.id) : waitingOf qs cq = [] := by
  induction qs with
  | nil => rfl
  | cons q qs ih =>
    rw [map_cons, mem_cons, not_or] at h
    rw [waitingOf_cons, if_neg (Ne.symm h.1), ih h.2]
    rfl

/-- The bytes in the ready queues. -/
def readySum (qs : List CommandQueue) : ℤ := (qs.map fun q => totalLen q.readyQueue).sum

/-- The bytes in the upcoming queues. -/
def upcomingSum (qs : List CommandQueue) : ℤ := (qs.map fun q => totalLen q.upcomingQueue).sum

@[simp] theorem totalLen_nil : totalLen [] = 0 := rfl

@[simp] theorem totalLen_cons (qm : QueueMessage) (msgs : List QueueMessage) :
    totalLen (qm :: msgs) = qm.msg.length + totalLen msgs :=
  rfl

@[simp] theorem totalLen_append (msgs msgs' : List QueueMessage) :
    totalLen (msgs ++ msgs') = totalLen msgs + totalLen msgs' := by
  rw [totalLen, map_append, sum_append]
  rfl

@[simp] theorem readySum_cons (q : CommandQueue) (qs : List CommandQueue) :
    readySum (q :: qs) = totalLen q.readyQueue + readySum qs :=
  rfl

@[simp] theorem readySum_append (qs qs' : List CommandQueue) :
    readySum (qs ++ qs') = readySum qs + readySum qs' := by
  rw [readySum, map_append, sum_append]
  rfl

@[simp] theorem upcomingSum_cons (q : CommandQueue) (qs : List CommandQueue) :
    upcomingSum (q :: qs) = totalLen q.upcomingQueue + upcomingSum qs :=
  rfl

@[simp] theorem upcomingSum_append (qs qs' : List CommandQueue) :
    upcomingSum (qs ++ qs') = upcomingSum qs + upcomingSum qs' := by
  rw [upcomingSum, map_append, sum_append]
  rfl

theorem totalLen_nonneg (msgs : List QueueMessage) : 0 ≤ totalLen msgs := by
  induction msgs with
  | nil => exact le_refl 0
  | cons qm msgs ih =>
    rw [totalLen_cons]
    omega

/-! ## Queues in order -/

/-- A message of one to 59 bytes with a clock below `MAX_CLOCK`. -/
structure QueueMessage.Fits (qm : QueueMessage) : Prop where
  nonempty : 1 ≤ qm.msg.length
  short : qm.msg.length ≤ messagePayloadMax
  clock : qm.reqClock < maxClock

instance (qm : QueueMessage) : Decidable qm.Fits :=
  decidable_of_iff (1 ≤ qm.msg.length ∧ qm.msg.length ≤ messagePayloadMax ∧
    qm.reqClock < maxClock) ⟨fun h => ⟨h.1, h.2.1, h.2.2⟩, fun h => ⟨h.1, h.2, h.3⟩⟩

/-- Each queue is on the list once, holds a message, and all messages fit. -/
structure Tidy (qs : List CommandQueue) : Prop where
  nodup : (qs.map CommandQueue.id).Nodup
  nonempty : ∀ q ∈ qs, q.waiting ≠ []
  fits : ∀ q ∈ qs, ∀ qm ∈ q.waiting, qm.Fits

/-- The queues are tidy and the counters are right. -/
structure Queued (sq : Serialqueue) : Prop where
  tidy : Tidy sq.pendingQueues
  ready : sq.readyBytes = readySum sq.pendingQueues
  upcoming : sq.upcomingBytes = upcomingSum sq.pendingQueues

/-- The bytes that wait in the command queues. -/
def held (sq : Serialqueue) : ℤ := sq.readyBytes + sq.upcomingBytes

theorem Queued.nonneg (h : Queued sq) : 0 ≤ sq.readyBytes ∧ 0 ≤ sq.upcomingBytes := by
  rw [h.ready, h.upcoming]
  exact ⟨sum_nonneg (forall_mem_map.mpr fun q _ => totalLen_nonneg _),
    sum_nonneg (forall_mem_map.mpr fun q _ => totalLen_nonneg _)⟩

/-- A message that fits counts. -/
theorem totalLen_pos {qm : QueueMessage} (h : qm.Fits) (msgs : List QueueMessage) :
    0 < totalLen (qm :: msgs) := by
  have hpos := h.nonempty
  have hrest := totalLen_nonneg msgs
  rw [totalLen_cons]
  omega

/-- Bytes are ready only if a message is. -/
theorem exists_ready_of_readySum (h : readySum qs ≠ 0) :
    ∃ q ∈ qs, ∃ qm rest, q.readyQueue = qm :: rest := by
  induction qs with
  | nil => exact absurd rfl h
  | cons q qs ih =>
    cases hq : q.readyQueue with
    | cons qm rest => exact ⟨q, mem_cons_self, qm, rest, hq⟩
    | nil =>
      rw [readySum_cons, hq, totalLen_nil, zero_add] at h
      obtain ⟨q', hmem, hready⟩ := ih h
      exact ⟨q', mem_cons_of_mem _ hmem, hready⟩

/-! ## Adding messages -/

theorem joinUpcoming_ids (cq : ℕ) (msgs : List QueueMessage) (qs : List CommandQueue) :
    (joinUpcoming cq msgs qs).map CommandQueue.id =
      if cq ∈ qs.map CommandQueue.id then qs.map CommandQueue.id
      else qs.map CommandQueue.id ++ [cq] := by
  fun_induction joinUpcoming cq msgs qs with
  | case1 => rfl
  | case2 q qs hid =>
    rw [if_pos (by rw [map_cons, hid]; exact mem_cons_self)]
    rfl
  | case3 q qs hid ih =>
    rw [map_cons, map_cons, ih]
    simp only [mem_cons, Ne.symm hid, false_or]
    split
    · rfl
    · rfl

/-- The messages join the end of their queue. -/
theorem waitingOf_joinUpcoming (hnodup : (qs.map CommandQueue.id).Nodup) (cq : ℕ)
    (msgs : List QueueMessage) (cq' : ℕ) :
    waitingOf (joinUpcoming cq msgs qs) cq' =
      waitingOf qs cq' ++ if cq = cq' then msgs else [] := by
  fun_induction joinUpcoming cq msgs qs with
  | case1 =>
    rw [waitingOf_cons, waitingOf_nil, append_nil]
    rfl
  | case2 q qs hid =>
    subst hid
    rw [map_cons, nodup_cons] at hnodup
    rw [waitingOf_cons, waitingOf_cons]
    by_cases hcq : q.id = cq'
    · -- no other queue of the list has this id
      subst hcq
      rw [waitingOf_eq_nil hnodup.1]
      simp [CommandQueue.waiting]
    · simp [hcq]
  | case3 q qs hid ih => rw [waitingOf_cons, waitingOf_cons, ih hnodup.of_cons, append_assoc]

theorem readySum_joinUpcoming (cq : ℕ) (msgs : List QueueMessage) (qs : List CommandQueue) :
    readySum (joinUpcoming cq msgs qs) = readySum qs := by
  fun_induction joinUpcoming cq msgs qs with
  | case1 => rfl
  | case2 q qs hid => rfl
  | case3 q qs hid ih => rw [readySum_cons, readySum_cons, ih]

theorem upcomingSum_joinUpcoming (cq : ℕ) (msgs : List QueueMessage) (qs : List CommandQueue) :
    upcomingSum (joinUpcoming cq msgs qs) = upcomingSum qs + totalLen msgs := by
  fun_induction joinUpcoming cq msgs qs with
  | case1 =>
    show totalLen msgs + 0 = 0 + totalLen msgs
    omega
  | case2 q qs hid =>
    rw [upcomingSum_cons, upcomingSum_cons, totalLen_append]
    omega
  | case3 q qs hid ih =>
    rw [upcomingSum_cons, upcomingSum_cons, ih]
    omega

/-- Every queue of the new list is an old one, or `cq` with the new messages. -/
theorem mem_joinUpcoming {cq : ℕ} {msgs : List QueueMessage} {q : CommandQueue}
    (h : q ∈ joinUpcoming cq msgs qs) :
    q ∈ qs ∨ ∃ old : CommandQueue, (old ∈ qs ∨ old.waiting = []) ∧
      q.readyQueue = old.readyQueue ∧ q.waiting = old.waiting ++ msgs := by
  fun_induction joinUpcoming cq msgs qs with
  | case1 =>
    obtain rfl := mem_singleton.mp h
    exact .inr ⟨{ id := cq }, .inr rfl, rfl, rfl⟩
  | case2 p qs hid =>
    rcases mem_cons.mp h with rfl | hmem
    · refine .inr ⟨p, .inl mem_cons_self, rfl, ?_⟩
      rw [CommandQueue.waiting, CommandQueue.waiting, append_assoc]
    · exact .inl (mem_cons_of_mem _ hmem)
  | case3 p qs hid ih =>
    rcases mem_cons.mp h with rfl | hmem
    · exact .inl mem_cons_self
    · rcases ih hmem with hold | ⟨old, hold, hready, hwaiting⟩
      · exact .inl (mem_cons_of_mem _ hold)
      · exact .inr ⟨old, hold.imp_left (mem_cons_of_mem _), hready, hwaiting⟩

theorem Tidy.joinUpcoming (h : Tidy qs) (cq : ℕ) {msgs : List QueueMessage}
    (hmsgs : msgs ≠ []) (hfits : ∀ qm ∈ msgs, qm.Fits) : Tidy (joinUpcoming cq msgs qs) := by
  refine ⟨?_, ?_, ?_⟩
  · rw [joinUpcoming_ids]
    split
    · exact h.nodup
    · next hnew => exact nodup_append_comm.mp (nodup_cons.mpr ⟨hnew, h.nodup⟩)
  · intro q hq
    rcases mem_joinUpcoming hq with hold | ⟨old, -, -, hwaiting⟩
    · exact h.nonempty q hold
    · rw [hwaiting]
      exact append_ne_nil_of_right_ne_nil _ hmsgs
  · intro q hq qm hqm
    rcases mem_joinUpcoming hq with hold | ⟨old, hold, -, hwaiting⟩
    · exact h.fits q hold qm hqm
    · rw [hwaiting, mem_append] at hqm
      rcases hqm with hqm | hqm
      · rcases hold with hold | hnone
        · exact h.fits old hold qm hqm
        · rw [hnone] at hqm
          cases hqm
      · exact hfits qm hqm

/-! ## Messages that are due -/

theorem moveDue_waiting (ackClock : ℕ) (q : CommandQueue) :
    (moveDue ackClock q).waiting = q.waiting := by
  rw [CommandQueue.waiting, CommandQueue.waiting, moveDue, dueMessages,
    append_assoc, takeWhile_append_dropWhile]

theorem waitingOf_moveDue (ackClock : ℕ) (qs : List CommandQueue) (cq : ℕ) :
    waitingOf (qs.map (moveDue ackClock)) cq = waitingOf qs cq := by
  induction qs with
  | nil => rfl
  | cons q qs ih =>
    rw [map_cons, waitingOf_cons, waitingOf_cons, ih, moveDue_waiting]
    rfl

theorem Tidy.moveDue (h : Tidy qs) (ackClock : ℕ) : Tidy (qs.map (moveDue ackClock)) := by
  have hids : (qs.map (Serialqueue.moveDue ackClock)).map CommandQueue.id =
      qs.map CommandQueue.id := by
    rw [map_map]
    rfl
  refine ⟨by rw [hids]; exact h.nodup, forall_mem_map.mpr fun q hq => ?_,
    forall_mem_map.mpr fun q hq => ?_⟩
  · rw [moveDue_waiting]
    exact h.nonempty q hq
  · rw [moveDue_waiting]
    exact h.fits q hq

theorem moveDue_sums (ackClock : ℕ) (qs : List CommandQueue) :
    readySum (qs.map (moveDue ackClock)) = readySum qs +
        (qs.map fun q => totalLen (dueMessages ackClock q)).sum ∧
      upcomingSum (qs.map (moveDue ackClock)) = upcomingSum qs -
        (qs.map fun q => totalLen (dueMessages ackClock q)).sum := by
  induction qs with
  | nil => exact ⟨rfl, rfl⟩
  | cons q qs ih =>
    have hready : totalLen (moveDue ackClock q).readyQueue =
        totalLen q.readyQueue + totalLen (dueMessages ackClock q) := totalLen_append _ _
    have hupcoming : totalLen q.upcomingQueue = totalLen (dueMessages ackClock q) +
        totalLen (moveDue ackClock q).upcomingQueue := by
      rw [← totalLen_append]
      exact congrArg totalLen takeWhile_append_dropWhile.symm
    rw [map_cons, readySum_cons, upcomingSum_cons, readySum_cons,
      upcomingSum_cons, map_cons, sum_cons]
    obtain ⟨ihready, ihupcoming⟩ := ih
    constructor
    · omega
    · omega

theorem Queued.moveStalled (h : Queued sq) (c : Clocks) : Queued (moveStalled c sq) := by
  obtain ⟨hready, hupcoming⟩ := moveDue_sums c.ackClock sq.pendingQueues
  have hold := h.ready
  have hold' := h.upcoming
  refine ⟨h.tidy.moveDue c.ackClock, ?_, ?_⟩
  · show sq.readyBytes + _ = readySum (sq.pendingQueues.map (moveDue c.ackClock))
    rw [hready, hold]
  · show sq.upcomingBytes - _ = upcomingSum (sq.pendingQueues.map (moveDue c.ackClock))
    rw [hupcoming, hold']

/-- What is ready after the move was ready, or its clock is reached. -/
theorem moveStalled_ready {c : Clocks} {P : QueueMessage → Prop}
    (hold : ∀ q ∈ sq.pendingQueues, ∀ qm ∈ q.readyQueue, P qm)
    (hdue : ∀ qm : QueueMessage, qm.minClock ≤ c.ackClock → P qm) :
    ∀ q ∈ (moveStalled c sq).pendingQueues, ∀ qm ∈ q.readyQueue, P qm := by
  intro q hq qm hqm
  obtain ⟨old, hmem, rfl⟩ := mem_map.mp hq
  rcases mem_append.mp hqm with hqm | hqm
  · exact hold old hmem qm hqm
  · have hreached := mem_takeWhile_imp hqm
    exact hdue qm (not_lt.mp (of_decide_eq_true hreached))

/-! ## Taking a message -/

/-- The search finds the head of a ready queue. -/
theorem findReady_eq_some {i minClock : ℕ} {best : Option (ℕ × QueueMessage)}
    {r : ℕ × QueueMessage} (h : findReady qs i minClock best = some r) :
    best = some r ∨ ∃ pre q post rest, qs = pre ++ q :: post ∧
      q.readyQueue = r.2 :: rest ∧ r.1 = i + pre.length := by
  induction qs generalizing i minClock best with
  | nil => exact .inl h
  | cons q qs ih =>
    -- a find behind the first queue is one in the whole list
    have hbehind : ∀ {minClock best}, findReady qs (i + 1) minClock best = some r →
        best = some r ∨ ∃ pre p post rest, q :: qs = pre ++ p :: post ∧
          p.readyQueue = r.2 :: rest ∧ r.1 = i + pre.length := by
      intro minClock best h
      rcases ih h with hbest | ⟨pre, p, post, rest, hqs, hready, hi⟩
      · exact .inl hbest
      · refine .inr ⟨q :: pre, p, post, rest, by rw [hqs]; rfl, hready, ?_⟩
        rw [length_cons]
        omega
    rw [findReady] at h
    split at h
    · exact hbehind h
    · next m rest hready =>
        split at h
        · rcases hbehind h with hbest | hfound
          · cases hbest
            exact .inr ⟨[], q, qs, rest, rfl, hready, rfl⟩
          · exact .inr hfound
        · exact hbehind h

/-- It finds none only if there is none with a clock below the bound. -/
theorem findReady_eq_none {i minClock : ℕ} {best : Option (ℕ × QueueMessage)}
    (h : findReady qs i minClock best = none) :
    best = none ∧ ∀ q ∈ qs, ∀ qm rest, q.readyQueue = qm :: rest → minClock ≤ qm.reqClock := by
  induction qs generalizing i minClock best with
  | nil => exact ⟨h, nofun⟩
  | cons p qs ih =>
    rw [findReady] at h
    rw [forall_mem_cons]
    split at h
    · next hnil =>
        obtain ⟨hbest, hqs⟩ := ih h
        refine ⟨hbest, ?_, hqs⟩
        rw [hnil]
        exact nofun
    · next m rest hready =>
        split at h
        · exact nomatch (ih h).1
        · next hclock =>
            obtain ⟨hbest, hqs⟩ := ih h
            refine ⟨hbest, ?_, hqs⟩
            rw [hready]
            rintro qm rest' ⟨⟩
            exact not_lt.mp hclock

theorem removeReady_append (pre post : List CommandQueue) (q : CommandQueue) :
    removeReady (pre ++ q :: post) pre.length =
      pre ++ if q.readyQueue.tail = [] ∧ q.upcomingQueue = [] then post
        else { q with readyQueue := q.readyQueue.tail } :: post := by
  induction pre with
  | nil => rfl
  | cons p pre ih =>
    show p :: removeReady (pre ++ q :: post) pre.length = _
    rw [ih]
    rfl

/-- One round of the loop of `build_and_send_command`: the first ready message of
    the queue at place `i` leaves it. -/
def takeReady (sq : Serialqueue) (i : ℕ) (qm : QueueMessage) : Serialqueue :=
  { sq with
    pendingQueues := removeReady sq.pendingQueues i
    readyBytes := sq.readyBytes - qm.msg.length
    notifyQueue :=
      if qm.notifyId ≠ 0 then sq.notifyQueue ++ [{ qm with reqClock := sq.sendSeq }]
      else sq.notifyQueue }

section TakeReady

variable {sq : Serialqueue} {pre post : List CommandQueue} {q : CommandQueue}
  {qm : QueueMessage} {rest : List QueueMessage}
  (hqs : sq.pendingQueues = pre ++ q :: post) (hready : q.readyQueue = qm :: rest)
include hqs hready

/-- The list without the message: the queue stays on it unless it is empty now. -/
theorem takeReady_queues :
    (takeReady sq pre.length qm).pendingQueues =
      pre ++ if rest = [] ∧ q.upcomingQueue = [] then post
        else { q with readyQueue := rest } :: post := by
  show removeReady sq.pendingQueues pre.length = _
  rw [hqs, removeReady_append, hready]
  rfl

/-- The message was the first of its queue. -/
theorem waitingOf_takeReady (h : Tidy sq.pendingQueues) (cq : ℕ) :
    waitingOf sq.pendingQueues cq = (if q.id = cq then [qm] else []) ++
      waitingOf (takeReady sq pre.length qm).pendingQueues cq := by
  have hnodup := h.nodup
  rw [hqs, map_append, map_cons] at hnodup
  have hpre : q.id ∉ pre.map CommandQueue.id := fun hmem =>
    (nodup_append.mp hnodup).2.2 _ hmem _ mem_cons_self rfl
  have hwaiting : q.waiting = qm :: (rest ++ q.upcomingQueue) := by
    rw [CommandQueue.waiting, hready]
    rfl
  rw [takeReady_queues hqs hready, hqs, waitingOf_append, waitingOf_cons,
    waitingOf_append, hwaiting]
  by_cases hid : q.id = cq
  · rw [if_pos hid, if_pos hid, ← hid, waitingOf_eq_nil hpre]
    by_cases hempty : rest = [] ∧ q.upcomingQueue = []
    · rw [if_pos hempty, hempty.1, hempty.2]
      rfl
    · rw [if_neg hempty, waitingOf_cons, if_pos rfl]
      rfl
  · rw [if_neg hid, if_neg hid]
    by_cases hempty : rest = [] ∧ q.upcomingQueue = []
    · rw [if_pos hempty]
      rfl
    · rw [if_neg hempty, waitingOf_cons, if_neg hid]
      rfl

/-- Every queue that is left is an old one, or `q` without the message. -/
theorem mem_takeReady {p : CommandQueue} (hp : p ∈ (takeReady sq pre.length qm).pendingQueues) :
    p ∈ sq.pendingQueues ∨ p = { q with readyQueue := rest } ∧ p.waiting ≠ [] := by
  rw [takeReady_queues hqs hready, mem_append] at hp
  rw [hqs]
  rcases hp with hp | hp
  · exact .inl (mem_append_left _ hp)
  by_cases hempty : rest = [] ∧ q.upcomingQueue = []
  · rw [if_pos hempty] at hp
    exact .inl (mem_append_right _ (mem_cons_of_mem _ hp))
  · rw [if_neg hempty] at hp
    rcases mem_cons.mp hp with rfl | hp
    · exact .inr ⟨rfl, fun hnone => hempty (append_eq_nil_iff.mp hnone)⟩
    · exact .inl (mem_append_right _ (mem_cons_of_mem _ hp))

theorem Tidy.takeReady (h : Tidy sq.pendingQueues) :
    Tidy (takeReady sq pre.length qm).pendingQueues := by
  have hq : q ∈ sq.pendingQueues := by
    rw [hqs]
    exact mem_append_right _ mem_cons_self
  refine ⟨?_, ?_, ?_⟩
  · have hnodup := h.nodup
    rw [hqs, map_append, map_cons] at hnodup
    rw [takeReady_queues hqs hready, map_append]
    split
    · exact hnodup.sublist (Sublist.append_left (sublist_cons_self _ _) _)
    · exact hnodup
  · intro p hp
    rcases mem_takeReady hqs hready hp with hold | ⟨-, hsome⟩
    · exact h.nonempty p hold
    · exact hsome
  · intro p hp m hm
    rcases mem_takeReady hqs hready hp with hold | ⟨rfl, -⟩
    · exact h.fits p hold m hm
    · refine h.fits q hq m ?_
      rw [CommandQueue.waiting, hready]
      exact mem_cons_of_mem _ hm

theorem Queued.takeReady (h : Queued sq) : Queued (takeReady sq pre.length qm) := by
  have hsum := h.ready
  have hsum' := h.upcoming
  rw [hqs, readySum_append, readySum_cons, hready, totalLen_cons] at hsum
  rw [hqs, upcomingSum_append, upcomingSum_cons] at hsum'
  refine ⟨h.tidy.takeReady hqs hready, ?_, ?_⟩
  · rw [takeReady_queues hqs hready, readySum_append]
    show sq.readyBytes - qm.msg.length = _
    split
    · next hempty =>
        rw [hempty.1, totalLen_nil] at hsum
        omega
    · rw [readySum_cons]
      dsimp only
      omega
  · rw [takeReady_queues hqs hready, upcomingSum_append]
    show sq.upcomingBytes = _
    split
    · next hempty =>
        rw [hempty.2, totalLen_nil] at hsum'
        omega
    · rw [upcomingSum_cons]
      dsimp only
      omega

theorem readyCount_takeReady : readyCount sq = readyCount (takeReady sq pre.length qm) + 1 := by
  rw [readyCount, readyCount, takeReady_queues hqs hready, hqs, map_append,
    map_append, map_cons, sum_append, sum_append, sum_cons,
    hready, length_cons]
  split
  · next hempty =>
      rw [hempty.1, length_nil]
      omega
  · rw [map_cons, sum_cons]
    dsimp only
    omega

end TakeReady

/-! ## Filling a block -/

/-- The messages that `build_and_send_command` puts into a block, each with its
    queue; the recursion is that of `fillBlock`. -/
def fillMessages : ℕ → Serialqueue → List UInt8 → List (ℕ × QueueMessage)
  | 0, _, _ => []
  | n + 1, sq, payload =>
    if sq.readyBytes = 0 then []
    else
      match findReady sq.pendingQueues 0 maxClock none with
      | none => []
      | some (i, qm) =>
        if messageHeaderSize + payload.length + qm.msg.length
            > messageMax - messageTrailerSize then []
        else ((sq.pendingQueues[i]?).elim 0 CommandQueue.id, qm) ::
          fillMessages n (takeReady sq i qm) (payload ++ qm.msg)

/-- The messages of one queue. -/
def messagesOf (cq : ℕ) (msgs : List (ℕ × QueueMessage)) : List QueueMessage :=
  (msgs.filter fun m => m.1 = cq).map Prod.snd

theorem messagesOf_cons (cq : ℕ) (m : ℕ × QueueMessage) (msgs : List (ℕ × QueueMessage)) :
    messagesOf cq (m :: msgs) = (if m.1 = cq then [m.2] else []) ++ messagesOf cq msgs := by
  rw [messagesOf, filter_cons]
  by_cases hm : m.1 = cq
  · rw [if_pos (decide_eq_true hm), if_pos hm]
    rfl
  · rw [if_neg (by simpa using hm), if_neg hm]
    rfl

/-- What filling a block with `msgs` does. -/
structure Filled (sq : Serialqueue) (payload : List UInt8)
    (msgs : List (ℕ × QueueMessage)) (sq' : Serialqueue) (payload' : List UInt8) : Prop where
  queued : Queued sq'
  bytes : payload' = payload ++ msgs.flatMap fun m => m.2.msg
  short : payload'.length ≤ messagePayloadMax
  waiting : ∀ cq, waitingOf sq.pendingQueues cq =
    messagesOf cq msgs ++ waitingOf sq'.pendingQueues cq
  ready : ∀ {P : QueueMessage → Prop},
    (∀ q ∈ sq.pendingQueues, ∀ qm ∈ q.readyQueue, P qm) →
      (∀ m ∈ msgs, P m.2) ∧ ∀ q ∈ sq'.pendingQueues, ∀ qm ∈ q.readyQueue, P qm
  acks : sq'.acks = sq.acks
  held : sq'.held ≤ sq.held

theorem Filled.none {payload : List UInt8} (h : Queued sq)
    (hlen : payload.length ≤ messagePayloadMax) : Filled sq payload [] sq payload :=
  ⟨h, (append_nil _).symm, hlen, fun _ => rfl, fun hready => ⟨nofun, hready⟩, rfl, le_refl _⟩

/-- Bytes are ready only if messages are counted. -/
theorem readyCount_pos (h : Queued sq) (hbytes : sq.readyBytes ≠ 0) : 0 < readyCount sq := by
  rw [h.ready] at hbytes
  obtain ⟨q, hq, qm, rest, hready⟩ := exists_ready_of_readySum hbytes
  obtain ⟨pre, post, hqs⟩ := append_of_mem hq
  rw [readyCount_takeReady hqs hready]
  exact Nat.succ_pos _

/-- **FILLING A BLOCK** does not run out of messages, and takes each from the front of its
    queue. -/
theorem fillBlock_filled {n : ℕ} {payload : List UInt8} (h : Queued sq)
    (hn : readyCount sq ≤ n) (hlen : payload.length ≤ messagePayloadMax) :
    ∃ sq' payload', fillBlock n sq payload = some (sq', payload') ∧
      Filled sq payload (fillMessages n sq payload) sq' payload' := by
  induction n generalizing sq payload with
  | zero =>
    have hzero : sq.readyBytes = 0 := by
      by_contra hbytes
      have hpos := readyCount_pos h hbytes
      omega
    exact ⟨sq, payload, if_pos hzero, Filled.none h hlen⟩
  | succ n ih =>
    rw [fillBlock, fillMessages]
    by_cases hzero : sq.readyBytes = 0
    · rw [if_pos hzero, if_pos hzero]
      exact ⟨sq, payload, rfl, Filled.none h hlen⟩
    rw [if_neg hzero, if_neg hzero]
    -- a message is ready, and its clock is below the bound of the search
    have hbytes := hzero
    rw [h.ready] at hbytes
    obtain ⟨q₀, hq₀, m₀, rest₀, hready₀⟩ := exists_ready_of_readySum hbytes
    have hclock : m₀.reqClock < maxClock := by
      refine (h.tidy.fits q₀ hq₀ m₀ ?_).clock
      rw [CommandQueue.waiting, hready₀]
      exact mem_cons_self
    obtain ⟨⟨i, qm⟩, hfind⟩ := Option.ne_none_iff_exists'.mp fun hnone =>
      not_lt.mpr ((findReady_eq_none hnone).2 q₀ hq₀ m₀ rest₀ hready₀) hclock
    rw [hfind]
    dsimp only
    rcases findReady_eq_some hfind with hbest | ⟨pre, q, post, rest, hqs, hready, hi⟩
    · cases hbest
    obtain rfl : i = pre.length := by
      rw [zero_add] at hi
      exact hi
    have hplace : (sq.pendingQueues[pre.length]?).elim 0 CommandQueue.id = q.id := by
      rw [hqs, getElem?_append_right (le_refl _), Nat.sub_self]
      rfl
    rw [hplace]
    by_cases hroom : messageHeaderSize + payload.length + qm.msg.length >
        messageMax - messageTrailerSize
    · rw [if_pos hroom, if_pos hroom]
      exact ⟨sq, payload, rfl, Filled.none h hlen⟩
    rw [if_neg hroom, if_neg hroom]
    have hlen' : (payload ++ qm.msg).length ≤ messagePayloadMax := by
      rw [length_append]
      simp only [messageHeaderSize, messageMax, messageTrailerSize, messagePayloadMax,
        messageMin] at hroom ⊢
      omega
    have hcount := readyCount_takeReady hqs hready
    obtain ⟨sq', payload', hfill, hfilled⟩ := ih (h.takeReady hqs hready) (by omega) hlen'
    have hq : q ∈ sq.pendingQueues := by
      rw [hqs]
      exact mem_append_right _ mem_cons_self
    refine ⟨sq', payload', hfill, hfilled.queued, ?_, hfilled.short, ?_, ?_, hfilled.acks, ?_⟩
    · rw [hfilled.bytes, flatMap_cons, append_assoc]
    · intro cq
      rw [waitingOf_takeReady hqs hready h.tidy, hfilled.waiting, messagesOf_cons, append_assoc]
    · intro P hP
      have hleft : ∀ p ∈ (takeReady sq pre.length qm).pendingQueues, ∀ m ∈ p.readyQueue, P m := by
        intro p hp m hm
        rcases mem_takeReady hqs hready hp with hold | ⟨rfl, -⟩
        · exact hP p hold m hm
        · exact hP q hq m (by rw [hready]; exact mem_cons_of_mem _ hm)
      obtain ⟨hmsgs, hend⟩ := hfilled.ready hleft
      refine ⟨forall_mem_cons.mpr ⟨?_, hmsgs⟩, hend⟩
      exact hP q hq qm (by rw [hready]; exact mem_cons_self)
    · refine hfilled.held.trans (add_le_add_left ?_ _)
      show sq.readyBytes - qm.msg.length ≤ _
      omega

end Serialqueue
