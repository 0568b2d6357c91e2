import Pick.MsgblockProofs

/-! # The host's send and receive queues (`klippy/chelper/serialqueue.c`)

Messages wait in command queues until their `min_clock`, are packed into
blocks by `build_and_send_command` and stay in `sent_queue` until the
firmware acknowledges them.  The functions below run under the queue's
lock, so each is one step on the state.

Times are doubles in the source and are left out, with the statistics and
the debugging copies.  What `check_send_command` computes from them (the
clock the next block could be acknowledged at, the clock of a background
request, the request window) is an argument, `Clocks`.  The sequence
counters are unbounded: a connection does not send `2^64` blocks.  A debug
file has no receiver; there `receive_seq` is `(uint64_t)-1` for good, which
is the flag `debugFile`. -/

namespace Serialqueue

/-- `MAX_PENDING_BLOCKS`. -/
def maxPendingBlocks : Nat := 12
/-- `MAX_CLOCK`. -/
def maxClock : Nat := 0x7fffffffffffffff
/-- `BACKGROUND_PRIORITY_CLOCK`. -/
def backgroundPriorityClock : Nat := 0x7fffffff00000000

/-! ## State -/

/-- `struct queue_message`; `len` is the length of `msg`. -/
structure QueueMessage where
  msg : List UInt8
  minClock : Nat := 0
  reqClock : Nat := 0
  notifyId : Nat := 0
  deriving DecidableEq, Repr

/-- `struct command_queue`. -/
structure CommandQueue where
  id : Nat
  readyQueue : List QueueMessage := []
  upcomingQueue : List QueueMessage := []
  deriving DecidableEq, Repr

/-- The retransmit timer: `PR_NEVER`, `PR_NOW` or a time. -/
inductive Timer where
  | never
  | now
  | pending
  deriving DecidableEq, Repr

end Serialqueue

open Serialqueue in
/-- `struct serialqueue`, as `serialqueue_alloc` fills it for a serial port. -/
structure Serialqueue where
  debugFile : Bool := false
  receiveWindow : Int := 0
  sendSeq : Nat := 1
  receiveSeq : Nat := 1
  ignoreNakSeq : Nat := 0
  lastAckSeq : Nat := 0
  retransmitSeq : Nat := 0
  sentQueue : List (List UInt8) := []
  pendingQueues : List CommandQueue := []
  readyBytes : Int := 0
  upcomingBytes : Int := 0
  needAckBytes : Int := 0
  lastAckBytes : Int := 0
  needKickClock : Nat := maxClock
  notifyQueue : List QueueMessage := []
  receiveQueue : List QueueMessage := []
  retransmitTimer : Timer := .never
  deriving DecidableEq, Repr

namespace Serialqueue

open Msgblock

/-- The bytes of a list of messages. -/
def totalLen (msgs : List QueueMessage) : Int := (msgs.map fun qm => (qm.msg.length : Int)).sum

/-! ## Queueing messages -/

/-- The `min_clock` of a message that is added to a queue, in 64 bits. -/
def clampMinClock (qm : QueueMessage) : QueueMessage :=
  if (qm.minClock + 2 ^ 31) % 2 ^ 64 < qm.reqClock ∧ qm.reqClock ≠ backgroundPriorityClock then
    { qm with minClock := (qm.reqClock + 2 ^ 64 - 2 ^ 31) % 2 ^ 64 }
  else qm

/-- Add messages to the queue `cq`; an empty queue is not on `pending_queues`. -/
def joinUpcoming (cq : Nat) (msgs : List QueueMessage) :
    List CommandQueue → List CommandQueue
  | [] => [{ id := cq, upcomingQueue := msgs }]
  | q :: qs =>
    if q.id = cq then
      { q with upcomingQueue := q.upcomingQueue ++ msgs } :: qs
    else q :: joinUpcoming cq msgs qs

/-- `serialqueue_send_batch`. -/
def serialqueueSendBatch (sq : Serialqueue) (cq : Nat) (msgs : List QueueMessage) : Serialqueue :=
  let msgs := msgs.map clampMinClock
  let len := totalLen msgs
  match msgs with
  | [] => sq
  | qm :: _ =>
    if len = 0 then sq
    else { sq with
      pendingQueues := joinUpcoming cq msgs sq.pendingQueues
      upcomingBytes := sq.upcomingBytes + len
      needKickClock := if qm.minClock < sq.needKickClock then 0 else sq.needKickClock }

/-! ## Building blocks -/

/-- The clocks `check_send_command` derives from the time estimate:
    `estFreq` says whether there is one. -/
structure Clocks where
  ackClock : Nat
  bgClock : Nat
  estFreq : Bool
  reqclockDelta : Nat
  deriving DecidableEq, Repr

/-- The result of `check_send_command`. -/
inductive Wake where
  | now
  | never
  | later
  deriving DecidableEq, Repr

/-- The messages of a queue that are due at `ackClock`. -/
def dueMessages (ackClock : Nat) (cq : CommandQueue) : List QueueMessage :=
  cq.upcomingQueue.takeWhile fun qm => ¬ackClock < qm.minClock

/-- Move the due messages from `upcoming_queue` to `ready_queue`. -/
def moveDue (ackClock : Nat) (cq : CommandQueue) : CommandQueue :=
  { cq with
    readyQueue := cq.readyQueue ++ dueMessages ackClock cq
    upcomingQueue := cq.upcomingQueue.dropWhile fun qm => ¬ackClock < qm.minClock }

/-- The clock of the first ready message of a queue. -/
def readyClock (c : Clocks) (cq : CommandQueue) : Nat :=
  match cq.readyQueue with
  | [] => maxClock
  | qm :: _ => if qm.reqClock = backgroundPriorityClock then c.bgClock else qm.reqClock

/-- The clock of the first message of a queue that is not due yet. -/
def stalledClock (cq : CommandQueue) : Nat :=
  match cq.upcomingQueue with
  | [] => maxClock
  | qm :: _ => qm.minClock

/-- The part of `check_send_command` that moves the due messages. -/
def moveStalled (c : Clocks) (sq : Serialqueue) : Serialqueue :=
  let moved := (sq.pendingQueues.map fun cq => totalLen (dueMessages c.ackClock cq)).sum
  { sq with
    pendingQueues := sq.pendingQueues.map (moveDue c.ackClock)
    upcomingBytes := sq.upcomingBytes - moved
    readyBytes := sq.readyBytes + moved }

/-- `check_send_command`. -/
def checkSendCommand (c : Clocks) (sq : Serialqueue) : Wake × Serialqueue :=
  if sq.sendSeq - sq.receiveSeq ≥ maxPendingBlocks ∧ sq.debugFile = false then
    (.never, sq)
  else if sq.sendSeq > sq.receiveSeq ∧ sq.debugFile = false ∧ sq.receiveWindow ≠ 0
      ∧ sq.needAckBytes + messageMax
          + (if sq.lastAckSeq < sq.receiveSeq then sq.lastAckBytes else 0)
        > sq.receiveWindow then
    (.never, sq)
  else
    let sq := moveStalled c sq
    let minStalledClock := (sq.pendingQueues.map stalledClock).foldl min maxClock
    let minReadyClock := (sq.pendingQueues.map (readyClock c)).foldl min maxClock
    if sq.readyBytes ≥ messagePayloadMax then (.now, sq)
    else if c.estFreq = false then
      if sq.readyBytes ≠ 0 then (.now, sq)
      else (.never, { sq with needKickClock := maxClock })
    else if minReadyClock ≤ (c.ackClock + c.reqclockDelta) % 2 ^ 64 then (.now, sq)
    else
      let wantclock := (minReadyClock + 2 ^ 64 - c.reqclockDelta) % 2 ^ 64
      (.later, { sq with needKickClock := min wantclock minStalledClock })

/-- The search for the ready message with the lowest `req_clock`: the first
    one of `pending_queues` wins a tie.  `i` is the place of the queue. -/
def findReady : List CommandQueue → Nat → Nat → Option (Nat × QueueMessage) →
    Option (Nat × QueueMessage)
  | [], _, _, best => best
  | q :: qs, i, minClock, best =>
    match q.readyQueue with
    | [] => findReady qs (i + 1) minClock best
    | m :: _ =>
      if m.reqClock < minClock then
        findReady qs (i + 1) m.reqClock (some (i, m))
      else findReady qs (i + 1) minClock best

/-- Take the first ready message from the queue at place `i`; a queue that
    becomes empty leaves `pending_queues`. -/
def removeReady : List CommandQueue → Nat → List CommandQueue
  | [], _ => []
  | q :: qs, 0 =>
    if q.readyQueue.tail = [] ∧ q.upcomingQueue = [] then qs
    else { q with readyQueue := q.readyQueue.tail } :: qs
  | q :: qs, i + 1 => q :: removeReady qs i

/-- The `while (sq->ready_bytes)` loop of `build_and_send_command`: the queue left and the
    payload.  `n` is the number of ready messages; behind them the source follows a null
    pointer. -/
def fillBlock : Nat → Serialqueue → List UInt8 →
    Option (Serialqueue × List UInt8)
  | 0, sq, payload => if sq.readyBytes = 0 then some (sq, payload) else none
  | n + 1, sq, payload =>
    if sq.readyBytes = 0 then some (sq, payload)
    else
      match findReady sq.pendingQueues 0 maxClock none with
      | none => none
      | some (i, qm) =>
        if messageHeaderSize + payload.length + qm.msg.length
            > messageMax - messageTrailerSize then some (sq, payload)
        else
          fillBlock n { sq with
            pendingQueues := removeReady sq.pendingQueues i
            readyBytes := sq.readyBytes - qm.msg.length
            notifyQueue :=
              if qm.notifyId ≠ 0 then
                sq.notifyQueue ++ [{ qm with reqClock := sq.sendSeq }]
              else sq.notifyQueue } (payload ++ qm.msg)

/-- `MESSAGE_DEST | (seq & MESSAGE_SEQ_MASK)`. -/
def seqByte (seq : Nat) : UInt8 := messageDest ||| UInt8.ofNat (seq % 16)

/-- The number of ready messages. -/
def readyCount (sq : Serialqueue) : Nat := (sq.pendingQueues.map fun cq => cq.readyQueue.length).sum

/-- `build_and_send_command`: the new state and the block. -/
def buildAndSendCommand (sq : Serialqueue) :
    Option (Serialqueue × List UInt8) := do
  let (sq, payload) ← fillBlock (readyCount sq) sq []
  let block := addFrame (seqByte sq.sendSeq) payload
  some ({ sq with
    retransmitTimer := if sq.sentQueue = [] then .pending else sq.retransmitTimer
    sendSeq := sq.sendSeq + 1
    needAckBytes := sq.needAckBytes + block.length
    sentQueue := sq.sentQueue ++ [block] }, block)

/-- One round of the loop of `command_event`: the block that is written, when it is time for one. -/
def commandRound (c : Clocks) (sq : Serialqueue) : Option (Serialqueue × Option (List UInt8)) :=
  match checkSendCommand c sq with
  | (.now, sq) => (buildAndSendCommand sq).map fun r => (r.1, some r.2)
  | (_, sq) => some (sq, none)

/-! ## Acknowledgements and retransmission -/

/-- The loop of `update_receive_seq` over `sent_queue`. -/
def popSent (rseq : Nat) : List (List UInt8) → Nat → Serialqueue → Serialqueue
  | [], _, sq =>
    -- an ack for a message not sent: connection init
    { sq with sentQueue := [], sendSeq := rseq }
  | sent :: rest, sentSeq, sq =>
    let sq := { sq with needAckBytes := sq.needAckBytes - sent.length }
    if rseq = sentSeq + 1 then
      { sq with sentQueue := rest, lastAckBytes := sent.length }
    else popSent rseq rest (sentSeq + 1) sq

/-- `update_receive_seq`. -/
def updateReceiveSeq (sq : Serialqueue) (rseq : Nat) : Serialqueue :=
  let sq := popSent rseq sq.sentQueue sq.receiveSeq sq
  { sq with
    receiveSeq := rseq
    retransmitTimer := if sq.sentQueue = [] then .never else .pending }

/-- The `notify_queue` loop of `handle_message`; `wake_seq` wraps. -/
def notifyDone (sq : Serialqueue) (rseq len : Nat) : Serialqueue :=
  let wakeSeq := (rseq + 2 ^ 64 - 1 - (if len > messageMin then 1 else 0)) % 2 ^ 64
  { sq with
    receiveQueue := sq.receiveQueue ++
      (sq.notifyQueue.takeWhile fun qm => qm.reqClock ≤ wakeSeq).map
        fun qm => { msg := [], notifyId := qm.notifyId }
    notifyQueue := sq.notifyQueue.dropWhile fun qm => qm.reqClock ≤ wakeSeq }

/-- The last part of `handle_message`: an ack, a nak or a data message. -/
def processMessage (sq : Serialqueue) (rseq : Nat) (input : List UInt8) : Serialqueue :=
  if input.length = messageMin then
    if sq.lastAckSeq < rseq then { sq with lastAckSeq := rseq }
    else if rseq > sq.ignoreNakSeq ∧ sq.sentQueue ≠ [] then
      -- duplicate ack is a nak: fast retransmit
      { sq with retransmitTimer := .now }
    else sq
  else { sq with receiveQueue := sq.receiveQueue ++ [{ msg := input }] }

/-- `handle_message` on the block `input`. -/
def handleMessage (sq : Serialqueue) (input : List UInt8) : Serialqueue :=
  let rseqDelta := ((input.getD 1 0).toNat + (16 - sq.receiveSeq % 16)) % 16
  let rseq := sq.receiveSeq + rseqDelta
  if rseq ≠ sq.receiveSeq ∧ rseq > sq.sendSeq ∧ sq.receiveSeq ≠ 1 then sq
  else
    let sq := if rseq ≠ sq.receiveSeq then updateReceiveSeq sq rseq else sq
    processMessage (notifyDone sq rseq input.length) rseq input

/-- `retransmit_event`: the blocks that are written again, behind a SYNC. -/
def retransmitEvent (sq : Serialqueue) : Serialqueue × List (List UInt8) :=
  ({ sq with
    ignoreNakSeq :=
      if sq.retransmitTimer = .now then
        if sq.receiveSeq < sq.retransmitSeq then sq.retransmitSeq
        else sq.receiveSeq
      else sq.sendSeq
    retransmitSeq := sq.sendSeq
    retransmitTimer := .pending }, sq.sentQueue)

/-! ## What the functions do to the window -/

/-- The part of the state the window protocol is about. -/
structure Core where
  sendSeq : Nat
  receiveSeq : Nat
  sentQueue : List (List UInt8)
  debugFile : Bool
  deriving DecidableEq

/-- The part with the sequence numbers. -/
def core (sq : Serialqueue) : Core := ⟨sq.sendSeq, sq.receiveSeq, sq.sentQueue, sq.debugFile⟩

/-- The part of the state that decides when a block may be sent, or sent again. -/
structure Acks where
  core : Core
  receiveWindow : ℤ
  needAckBytes : ℤ
  lastAckSeq : ℕ
  lastAckBytes : ℤ
  retransmitTimer : Timer

/-- The part that acks change. -/
def acks (sq : Serialqueue) : Acks :=
  ⟨sq.core, sq.receiveWindow, sq.needAckBytes, sq.lastAckSeq, sq.lastAckBytes, sq.retransmitTimer⟩

/-- The two tests at the start of `check_send_command`. -/
def windowFull (sq : Serialqueue) : Prop :=
  (sq.sendSeq - sq.receiveSeq ≥ maxPendingBlocks ∧ sq.debugFile = false) ∨
    (sq.sendSeq > sq.receiveSeq ∧ sq.debugFile = false ∧ sq.receiveWindow ≠ 0 ∧
      sq.needAckBytes + messageMax +
        (if sq.lastAckSeq < sq.receiveSeq then sq.lastAckBytes else 0) > sq.receiveWindow)

instance (sq : Serialqueue) : Decidable (windowFull sq) := inferInstanceAs (Decidable (_ ∨ _))

/-- The second half of `build_and_send_command`: the block is stored. -/
def storeBlock (sq : Serialqueue) (block : List UInt8) : Serialqueue :=
  { sq with
    retransmitTimer := if sq.sentQueue = [] then .pending else sq.retransmitTimer
    sendSeq := sq.sendSeq + 1
    needAckBytes := sq.needAckBytes + block.length
    sentQueue := sq.sentQueue ++ [block] }

theorem serialqueueSendBatch_acks (sq : Serialqueue) (cq : Nat) (msgs : List QueueMessage) :
    (serialqueueSendBatch sq cq msgs).acks = sq.acks := by
  unfold serialqueueSendBatch
  simp only
  split
  · rfl
  · split
    · rfl
    · rfl

theorem checkSendCommand_acks (c : Clocks) (sq : Serialqueue) :
    (checkSendCommand c sq).2.acks = sq.acks := by
  simp only [checkSendCommand]
  split_ifs <;> rfl

/-- **WHAT `check_send_command` DOES**: nothing if the window is full, otherwise it
    moves the messages that are due. -/
theorem checkSendCommand_cases (c : Clocks) (sq : Serialqueue) :
    (windowFull sq ∧ checkSendCommand c sq = (.never, sq)) ∨
      (¬ windowFull sq ∧ ∃ wake kick, checkSendCommand c sq =
        (wake, { moveStalled c sq with needKickClock := kick })) := by
  unfold checkSendCommand
  by_cases hblocks : sq.sendSeq - sq.receiveSeq ≥ maxPendingBlocks ∧ sq.debugFile = false
  · rw [if_pos hblocks]
    exact .inl ⟨.inl hblocks, rfl⟩
  by_cases hbytes : sq.sendSeq > sq.receiveSeq ∧ sq.debugFile = false ∧
      sq.receiveWindow ≠ 0 ∧ sq.needAckBytes + messageMax +
        (if sq.lastAckSeq < sq.receiveSeq then sq.lastAckBytes else 0) > sq.receiveWindow
  · rw [if_neg hblocks, if_pos hbytes]
    exact .inl ⟨.inr hbytes, rfl⟩
  rw [if_neg hblocks, if_neg hbytes]
  refine .inr ⟨fun hfull => hfull.elim hblocks hbytes, ?_⟩
  dsimp only
  split_ifs
  · exact ⟨_, (moveStalled c sq).needKickClock, rfl⟩
  · exact ⟨_, (moveStalled c sq).needKickClock, rfl⟩
  · exact ⟨_, maxClock, rfl⟩
  · exact ⟨_, (moveStalled c sq).needKickClock, rfl⟩
  · exact ⟨.later, _, rfl⟩

variable {sq sq' : Serialqueue} {c : Clocks} {sq : Serialqueue}

/-- A block is only built while the window has room. -/
theorem checkSendCommand_now (h : checkSendCommand c sq = (.now, sq')) : ¬ windowFull sq := by
  rcases checkSendCommand_cases c sq with ⟨-, hcheck⟩ | ⟨hroom, -⟩
  · exact nomatch congrArg Prod.fst (hcheck.symm.trans h)
  · exact hroom

theorem fillBlock_acks {n : Nat} {payload payload' : List UInt8}
    (h : fillBlock n sq payload = some (sq', payload'))
    (hlen : payload.length ≤ messagePayloadMax) :
    sq'.acks = sq.acks ∧ payload'.length ≤ messagePayloadMax := by
  fun_induction fillBlock n sq payload with
  | case1 | case3 | case5 =>
    cases h
    exact ⟨rfl, hlen⟩
  | case2 | case4 => exact nomatch h
  | case6 n sq payload hzero i qm hfind hfit ih =>
    refine ih h ?_
    rw [List.length_append]
    simp only [messageHeaderSize, messageMax, messageTrailerSize,
      messagePayloadMax, messageMin] at hfit ⊢
    omega

/-- A round of `command_event` that writes nothing. -/
theorem commandRound_idle (h : commandRound c sq = some (sq', none)) : sq'.acks = sq.acks := by
  unfold commandRound at h
  have hacks := checkSendCommand_acks c sq
  split at h
  · obtain ⟨r, -, hpair⟩ := Option.map_eq_some_iff.mp h
    exact nomatch (Prod.mk.inj hpair).2
  · rename_i hcheck
    rw [hcheck] at hacks
    cases h
    exact hacks

/-- A round that writes a block: the window has room, and the block is stored. -/
theorem commandRound_stores {block : List UInt8} (h : commandRound c sq = some (sq', some block)) :
    ¬ windowFull sq ∧ ∃ sq₁ : Serialqueue, sq₁.acks = sq.acks ∧ sq' = storeBlock sq₁ block ∧
      ∃ payload, payload.length ≤ messagePayloadMax ∧
        block = addFrame (seqByte sq.sendSeq) payload := by
  unfold commandRound at h
  have hacks := checkSendCommand_acks c sq
  split at h
  · rename_i hcheck
    rw [hcheck] at hacks
    obtain ⟨⟨sq₂, block₂⟩, hbuild, hpair⟩ := Option.map_eq_some_iff.mp h
    obtain ⟨rfl, hblock⟩ := Prod.mk.inj hpair
    cases hblock
    obtain ⟨⟨sq₁, payload⟩, hfill, hstore⟩ := Option.bind_eq_some_iff.mp hbuild
    obtain ⟨hfilled, hlen⟩ := fillBlock_acks hfill (Nat.zero_le _)
    cases hstore
    have hsend : sq₁.sendSeq = sq.sendSeq :=
      congrArg (fun a => a.core.sendSeq) (hfilled.trans hacks)
    refine ⟨checkSendCommand_now hcheck, sq₁, hfilled.trans hacks, rfl, payload, hlen, ?_⟩
    rw [hsend]
  · cases h

/-- Acknowledging `k + 1` of the blocks in `sent_queue`. -/
theorem popSent_core {rseq k : Nat} {queue : List (List UInt8)} {sentSeq : Nat}
    {sq : Serialqueue} (hk : rseq = sentSeq + (k + 1)) (hle : k + 1 ≤ queue.length) :
    (popSent rseq queue sentSeq sq).core = { sq.core with sentQueue := queue.drop (k + 1) } := by
  induction queue generalizing sentSeq sq k with
  | nil => exact absurd hle (by simp)
  | cons sent rest ih =>
    rw [popSent]
    cases k with
    | zero =>
      rw [if_pos (by omega)]
      rfl
    | succ k =>
      rw [if_neg (by omega), ih (k := k) (by omega) (by rw [List.length_cons] at hle; omega)]
      rfl

theorem updateReceiveSeq_core {rseq : Nat} (hlt : sq.receiveSeq < rseq)
    (hle : rseq ≤ sq.receiveSeq + sq.sentQueue.length) :
    (updateReceiveSeq sq rseq).core = { sq.core with
      receiveSeq := rseq
      sentQueue := sq.sentQueue.drop (rseq - sq.receiveSeq) } := by
  obtain ⟨k, rfl⟩ : ∃ k, rseq = sq.receiveSeq + (k + 1) := ⟨rseq - sq.receiveSeq - 1, by omega⟩
  have hpop := @popSent_core (sq.receiveSeq + (k + 1)) k sq.sentQueue
    sq.receiveSeq sq rfl (by omega)
  obtain ⟨hsend, -, hsent, hdebug⟩ := Core.mk.inj hpop
  rw [Nat.add_sub_cancel_left]
  exact Core.mk.injEq .. ▸ ⟨hsend, rfl, hsent, hdebug⟩

/-- What the loop of `update_receive_seq` may change. -/
theorem popSent_frame (rseq : Nat) (queue : List (List UInt8)) (sentSeq : Nat) (sq : Serialqueue) :
    ∃ send sent need last, popSent rseq queue sentSeq sq = { sq with
      sendSeq := send, sentQueue := sent, needAckBytes := need, lastAckBytes := last } := by
  fun_induction popSent rseq queue sentSeq sq with
  | case1 | case2 => exact ⟨_, _, _, _, rfl⟩
  | case3 sent rest sentSeq sq sq' hseq ih => exact ih

/-- What `handle_message` may change behind it. -/
theorem processMessage_frame (sq : Serialqueue) (rseq : Nat) (input : List UInt8) :
    ∃ ack timer receive notify,
      processMessage (notifyDone sq rseq input.length) rseq input = { sq with
        lastAckSeq := ack, retransmitTimer := timer
        receiveQueue := receive, notifyQueue := notify } ∧
      (ack = sq.lastAckSeq ∨ input.length = messageMin ∧ ack = rseq) := by
  unfold processMessage
  split_ifs with hmin
  · exact ⟨_, _, _, _, rfl, .inr ⟨hmin, rfl⟩⟩
  · exact ⟨_, _, _, _, rfl, .inl rfl⟩
  · exact ⟨_, _, _, _, rfl, .inl rfl⟩
  · exact ⟨_, _, _, _, rfl, .inl rfl⟩

theorem processMessage_core (sq : Serialqueue) (rseq : Nat)
    (input : List UInt8) : (processMessage sq rseq input).core = sq.core := by
  unfold processMessage
  split_ifs <;> rfl

/-- `send_seq` counts the blocks in `sent_queue` from `receive_seq` on. -/
def WellFormed (sq : Serialqueue) : Prop := sq.sendSeq = sq.receiveSeq + sq.sentQueue.length

theorem wellFormed_alloc : WellFormed {} := rfl

/-- The loop of `update_receive_seq` keeps count, also when it runs out of blocks. -/
theorem popSent_count {rseq : Nat} {queue : List (List UInt8)} {sentSeq : Nat}
    (hlt : sentSeq < rseq) (h : sq.sendSeq = sentSeq + queue.length) :
    (popSent rseq queue sentSeq sq).sendSeq
      = rseq + (popSent rseq queue sentSeq sq).sentQueue.length := by
  fun_induction popSent rseq queue sentSeq sq with
  | case1 => rfl
  | case2 sent rest sentSeq sq sq' hfound =>
    rw [List.length_cons] at h
    show sq.sendSeq = rseq + rest.length
    omega
  | case3 sent rest sentSeq sq sq' hseq ih =>
    rw [List.length_cons] at h
    exact ih (by omega) (by show sq.sendSeq = _; omega)

/-- The receiver's number that `handle_message` reads from a block. -/
def rseqOf (sq : Serialqueue) (input : List UInt8) : Nat :=
  sq.receiveSeq + ((input.getD 1 0).toNat + (16 - sq.receiveSeq % 16)) % 16

/-- A message that acknowledges no more than was sent. -/
theorem handleMessage_core {input : List UInt8}
    (hwf : sq.sendSeq = sq.receiveSeq + sq.sentQueue.length) (hle : rseqOf sq input ≤ sq.sendSeq) :
    (handleMessage sq input).core = { sq.core with
      receiveSeq := rseqOf sq input
      sentQueue := sq.sentQueue.drop (rseqOf sq input - sq.receiveSeq) } := by
  unfold handleMessage
  simp only [show sq.receiveSeq + ((input.getD 1 0).toNat
    + (16 - sq.receiveSeq % 16)) % 16 = rseqOf sq input from rfl]
  rw [if_neg (by omega), processMessage_core]
  show core (if rseqOf sq input ≠ sq.receiveSeq then
    updateReceiveSeq sq (rseqOf sq input) else sq) = _
  have hge : sq.receiveSeq ≤ rseqOf sq input := Nat.le_add_right ..
  by_cases hnew : rseqOf sq input ≠ sq.receiveSeq
  · rw [if_pos hnew, updateReceiveSeq_core (by omega) (by omega)]
  · rw [if_neg hnew, not_ne_iff.mp hnew, Nat.sub_self, List.drop_zero]
    rfl

/-! ## The retransmit timer -/

/-- Blocks that are not acknowledged have the retransmit timer running. -/
def Armed (sq : Serialqueue) : Prop := sq.sentQueue ≠ [] → sq.retransmitTimer ≠ .never

theorem Armed.of_acks (h : sq.Armed) (hacks : sq'.acks = sq.acks) : sq'.Armed := by
  have hsent : sq'.sentQueue = sq.sentQueue := congrArg (fun a => a.core.sentQueue) hacks
  have htimer : sq'.retransmitTimer = sq.retransmitTimer := congrArg Acks.retransmitTimer hacks
  rw [Armed, hsent, htimer]
  exact h

/-- The first block starts it. -/
theorem Armed.storeBlock (h : sq.Armed) (block : List UInt8) : (sq.storeBlock block).Armed := by
  intro _
  show (if sq.sentQueue = [] then Timer.pending else sq.retransmitTimer) ≠ .never
  split
  · exact nofun
  · next hne => exact h hne

theorem Armed.processMessage (h : sq.Armed) (rseq : Nat) (input : List UInt8) :
    (processMessage sq rseq input).Armed := by
  unfold Serialqueue.processMessage
  split_ifs
  · exact h
  · exact nofun
  · exact h
  · exact h

/-- Only an empty `sent_queue` stops it. -/
theorem armed_updateReceiveSeq (sq : Serialqueue) (rseq : Nat) :
    (updateReceiveSeq sq rseq).Armed := by
  intro hne
  have htimer : (updateReceiveSeq sq rseq).retransmitTimer = .pending := if_neg hne
  rw [htimer]
  exact nofun

theorem Armed.handleMessage (h : sq.Armed) (input : List UInt8) :
    (handleMessage sq input).Armed := by
  unfold Serialqueue.handleMessage
  simp only
  split
  · exact h
  · refine Armed.processMessage ?_ _ input
    show Armed (if _ then updateReceiveSeq sq _ else sq)
    split
    · exact armed_updateReceiveSeq sq _
    · exact h

end Serialqueue
