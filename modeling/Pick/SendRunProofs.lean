import Pick.SendQueueProofs

/-! # Runs of the host's send queue

`serialqueue_send_batch`, `command_event`, `retransmit_event` and
`handle_message` in any order, with a log of the messages that are queued, of the
values of `ack_clock` that `check_send_command` compares with and of the blocks
that are built.  `Advances` says what any of them does to the queues and the
counters; it is transitive, so a run does the same. -/

namespace Serialqueue

open List Msgblock

/-! ## The log -/

/-- What happens in a run. -/
inductive Entry where
  /-- `serialqueue_send_batch` is given messages for a queue. -/
  | queued (cq : ℕ) (msgs : List QueueMessage)
  /-- `check_send_command` looks for messages that are due. -/
  | reached (ackClock : ℕ)
  /-- A block is built from messages, each with its queue. -/
  | built (seq : ℕ) (msgs : List (ℕ × QueueMessage)) (block : List UInt8)
  deriving DecidableEq

/-- The messages that were queued for `cq`. -/
def queuedOf (cq : ℕ) (log : List Entry) : List QueueMessage :=
  log.flatMap fun
    | .queued cq' msgs => if cq' = cq then msgs else []
    | _ => []

/-- The messages of `cq` that were put into blocks, block after block. -/
def packedOf (cq : ℕ) (log : List Entry) : List QueueMessage :=
  log.flatMap fun
    | .built _ msgs _ => messagesOf cq msgs
    | _ => []

theorem queuedOf_append (cq : ℕ) (log more : List Entry) :
    queuedOf cq (log ++ more) = queuedOf cq log ++ queuedOf cq more :=
  flatMap_append

theorem packedOf_append (cq : ℕ) (log more : List Entry) :
    packedOf cq (log ++ more) = packedOf cq log ++ packedOf cq more :=
  flatMap_append

/-- The bytes that were queued. -/
def queuedBytes (log : List Entry) : ℤ :=
  totalLen (log.flatMap fun
    | .queued _ msgs => msgs
    | _ => [])

theorem queuedBytes_append (log more : List Entry) :
    queuedBytes (log ++ more) = queuedBytes log + queuedBytes more := by
  rw [queuedBytes, flatMap_append, totalLen_append]
  rfl

/-- The clock of the message has been reached. -/
def Reached (log : List Entry) (qm : QueueMessage) : Prop :=
  ∃ ackClock, .reached ackClock ∈ log ∧ qm.minClock ≤ ackClock

theorem Reached.append {log : List Entry} {qm : QueueMessage} (h : Reached log qm)
    (more : List Entry) : Reached (log ++ more) qm := by
  obtain ⟨ackClock, hmem, hle⟩ := h
  exact ⟨ackClock, mem_append_left _ hmem, hle⟩

/-- A block holds the bytes of its messages, is short enough, and the clock of each
    message was reached before. -/
def Entry.Fine (before : List Entry) : Entry → Prop
  | .built seq msgs block =>
    block = addFrame (seqByte seq) (msgs.flatMap fun m => m.2.msg) ∧
      block.length ≤ messageMax ∧ ∀ m ∈ msgs, Reached before m.2
  | _ => True

/-! ## What the steps do -/

/-- The bytes of some blocks. -/
def blockSum (blocks : List (List UInt8)) : ℤ := (blocks.map fun block => (block.length : ℤ)).sum

theorem blockSum_cons (block : List UInt8) (blocks : List (List UInt8)) :
    blockSum (block :: blocks) = block.length + blockSum blocks :=
  rfl

theorem blockSum_append (blocks more : List (List UInt8)) :
    blockSum (blocks ++ more) = blockSum blocks + blockSum more := by
  rw [blockSum, map_append, sum_append]
  rfl

/-- The blocks that wait for their acknowledgement. -/
structure Sent (sq : Serialqueue) : Prop where
  serial : sq.debugFile = false
  wellFormed : sq.WellFormed
  room : sq.sentQueue.length ≤ maxPendingBlocks
  bytes : sq.needAckBytes = blockSum sq.sentQueue
  short : ∀ block ∈ sq.sentQueue, block.length ≤ messageMax

/-- The ready messages are due, by this log. -/
def Due (sq : Serialqueue) (log : List Entry) : Prop :=
  ∀ q ∈ sq.pendingQueues, ∀ qm ∈ q.readyQueue, Reached log qm

/-- From `sq` to `sq'` with the entries `log`. -/
structure Advances (sq : Serialqueue) (log : List Entry) (sq' : Serialqueue) : Prop where
  sent : Sent sq'
  queued : Queued sq'
  waiting : ∀ cq, waitingOf sq.pendingQueues cq ++ (queuedOf cq log).map clampMinClock =
    packedOf cq log ++ waitingOf sq'.pendingQueues cq
  held : sq'.held ≤ sq.held + queuedBytes log
  due : ∀ before, Due sq before → Due sq' (before ++ log)
  fine : ∀ before, Due sq before → ∀ pre entry post, log = pre ++ entry :: post →
    entry.Fine (before ++ pre)

variable {sq sq' : Serialqueue} {qs : List CommandQueue}

theorem Advances.trans {sq'' : Serialqueue} {log more : List Entry}
    (h : Advances sq log sq') (h' : Advances sq' more sq'') : Advances sq (log ++ more) sq'' := by
  refine ⟨h'.sent, h'.queued, fun cq => ?_, ?_, fun before hdue => ?_, ?_⟩
  · rw [queuedOf_append, packedOf_append, map_append, ← append_assoc,
      h.waiting, append_assoc, h'.waiting, append_assoc]
  · have hfirst := h.held
    have hnext := h'.held
    rw [queuedBytes_append]
    omega
  · rw [← append_assoc]
    exact h'.due _ (h.due before hdue)
  · intro before hdue pre entry post heq
    -- the entry is one of the first steps or one of the others
    rcases append_eq_append_iff.mp heq with ⟨as, rfl, hmore⟩ | ⟨bs, hlog, hpost⟩
    · have hfine := h'.fine (before ++ log) (h.due before hdue) as entry post hmore
      rw [append_assoc] at hfine
      exact hfine
    · cases bs with
      | nil =>
        rw [append_nil] at hlog
        subst hlog
        have hfine := h'.fine (before ++ log) (h.due before hdue) [] entry post hpost.symm
        rw [append_nil] at hfine
        exact hfine
      | cons b bs =>
        cases hpost
        exact h.fine before hdue pre entry bs hlog

/-- The part of the state that acknowledgements leave alone. -/
def queues (sq : Serialqueue) : List CommandQueue × ℤ × ℤ × Bool :=
  (sq.pendingQueues, sq.readyBytes, sq.upcomingBytes, sq.debugFile)

/-- A step without entries that leaves the queues as they are. -/
theorem Advances.silent (hs : Sent sq') (hq : Queued sq) (hsame : sq'.queues = sq.queues) :
    Advances sq [] sq' := by
  simp only [queues, Prod.mk.injEq] at hsame
  obtain ⟨hqueues, hready, hupcoming, -⟩ := hsame
  have hq' : Queued sq' := by
    refine ⟨?_, ?_, ?_⟩
    · rw [hqueues]
      exact hq.tidy
    · rw [hready, hqueues]
      exact hq.ready
    · rw [hupcoming, hqueues]
      exact hq.upcoming
  refine ⟨hs, hq', fun cq => ?_, ?_, fun before hdue => ?_, ?_⟩
  · rw [hqueues]
    exact append_nil _
  · rw [Serialqueue.held, hready, hupcoming]
    exact le_add_of_nonneg_right (totalLen_nonneg _)
  · rw [append_nil, Due, hqueues]
    exact hdue
  · intro before _ pre entry post h
    exact absurd h.symm (append_ne_nil_of_right_ne_nil _ (cons_ne_nil _ _))

variable {sq : Serialqueue} {h : Host}

theorem Advances.refl (hs : Sent sq) (hq : Queued sq) : Advances sq [] sq :=
  Advances.silent hs hq rfl

/-- The entry of a log with one entry. -/
theorem eq_of_singleton {e entry : Entry} {pre post : List Entry}
    (h : [e] = pre ++ entry :: post) : pre = [] ∧ entry = e := by
  rcases singleton_eq_append_iff.mp h with ⟨hpre, hentry⟩ | ⟨-, hnil⟩
  · exact ⟨hpre, (List.cons.inj hentry).1⟩
  · cases hnil

/-! ### Queueing messages -/

theorem clampMinClock_msg (qm : QueueMessage) : (clampMinClock qm).msg = qm.msg := by
  rw [clampMinClock]
  split
  · rfl
  · rfl

theorem totalLen_clampMinClock (msgs : List QueueMessage) :
    totalLen (msgs.map clampMinClock) = totalLen msgs := by
  rw [totalLen, totalLen, map_map]
  exact congrArg List.sum (map_congr_left fun qm _ =>
    congrArg (fun msg : List UInt8 => (msg.length : ℤ)) (clampMinClock_msg qm))

theorem QueueMessage.Fits.clampMinClock {qm : QueueMessage} (h : qm.Fits) :
    (clampMinClock qm).Fits := by
  have hclock : (Serialqueue.clampMinClock qm).reqClock = qm.reqClock := by
    rw [Serialqueue.clampMinClock]
    split
    · rfl
    · rfl
  refine ⟨?_, ?_, ?_⟩
  · rw [clampMinClock_msg]
    exact h.nonempty
  · rw [clampMinClock_msg]
    exact h.short
  · rw [hclock]
    exact h.clock

theorem Sent.congr (h : Sent sq) (hcore : sq'.core = sq.core)
    (hbytes : sq'.needAckBytes = sq.needAckBytes) : Sent sq' := by
  obtain ⟨hsend, hrecv, hsent, hdebug⟩ := Core.mk.inj hcore
  refine ⟨by rw [hdebug]; exact h.serial, ?_, ?_, ?_, ?_⟩
  · rw [WellFormed, hsend, hrecv, hsent]
    exact h.wellFormed
  · rw [hsent]
    exact h.room
  · rw [hbytes, hsent]
    exact h.bytes
  · rw [hsent]
    exact h.short

theorem Sent.of_acks (h : Sent sq) (hacks : sq'.acks = sq.acks) : Sent sq' :=
  h.congr (congrArg Acks.core hacks) (congrArg Acks.needAckBytes hacks)

/-- The state after messages for `cq` are queued. -/
theorem serialqueueSendBatch_eq {cq : ℕ} {qm : QueueMessage} {msgs : List QueueMessage}
    (hfits : ∀ m ∈ qm :: msgs, m.Fits) :
    ∃ kick, serialqueueSendBatch sq cq (qm :: msgs) = { sq with
      pendingQueues := joinUpcoming cq ((qm :: msgs).map clampMinClock) sq.pendingQueues
      upcomingBytes := sq.upcomingBytes + totalLen ((qm :: msgs).map clampMinClock)
      needKickClock := kick } := by
  have hpos := totalLen_pos (hfits qm mem_cons_self).clampMinClock (msgs.map clampMinClock)
  have hlen : ¬ totalLen ((qm :: msgs).map clampMinClock) = 0 := ne_of_gt hpos
  refine ⟨if (clampMinClock qm).minClock < sq.needKickClock then 0
    else sq.needKickClock, ?_⟩
  rw [serialqueueSendBatch]
  exact if_neg hlen

/-- `serialqueue_send_batch` adds the messages at the end of their queue. -/
theorem serialqueueSendBatch_advances (hs : Sent sq) (hq : Queued sq) (cq : ℕ)
    {msgs : List QueueMessage} (hfits : ∀ m ∈ msgs, m.Fits) :
    Advances sq [.queued cq msgs] (serialqueueSendBatch sq cq msgs) := by
  have hfine : ∀ before : List Entry, ∀ pre entry post,
      [Entry.queued cq msgs] = pre ++ entry :: post → entry.Fine (before ++ pre) := by
    intro before pre entry post h
    obtain ⟨-, rfl⟩ := eq_of_singleton h
    exact trivial
  have hqueued : ∀ cq', queuedOf cq' [.queued cq msgs] = if cq = cq' then msgs else [] :=
    fun cq' => append_nil _
  cases msgs with
  | nil =>
    refine ⟨hs, hq, fun cq' => ?_, le_add_of_nonneg_right (totalLen_nonneg _),
      fun before hdue q hmem qm hqm => (hdue q hmem qm hqm).append _, fun before _ => hfine before⟩
    rw [hqueued, ite_self]
    exact append_nil _
  | cons qm msgs =>
    obtain ⟨kick, heq⟩ := @serialqueueSendBatch_eq sq cq qm msgs hfits
    have hfits' : ∀ m ∈ (qm :: msgs).map clampMinClock, m.Fits :=
      forall_mem_map.mpr fun m hm => (hfits m hm).clampMinClock
    rw [heq]
    refine ⟨hs.of_acks rfl, ⟨?_, ?_, ?_⟩, fun cq' => ?_, ?_, ?_, fun before _ => hfine before⟩
    · exact hq.tidy.joinUpcoming cq (cons_ne_nil _ _) hfits'
    · exact hq.ready.trans (readySum_joinUpcoming _ _ _).symm
    · rw [upcomingSum_joinUpcoming, ← hq.upcoming]
    · rw [waitingOf_joinUpcoming hq.tidy.nodup, hqueued]
      by_cases hcq : cq = cq'
      · rw [if_pos hcq, if_pos hcq]
        rfl
      · rw [if_neg hcq, if_neg hcq]
        rfl
    · show sq.readyBytes + (sq.upcomingBytes + totalLen _) ≤ _ + totalLen ((qm :: msgs) ++ [])
      rw [totalLen_clampMinClock, append_nil, held, add_assoc]
    · intro before hdue q hmem m hm
      rcases mem_joinUpcoming hmem with hold | ⟨old, hold, hready, -⟩
      · exact (hdue q hold m hm).append _
      · rw [hready] at hm
        rcases hold with hold | hnone
        · exact (hdue old hold m hm).append _
        · rw [(append_eq_nil_iff.mp hnone).1] at hm
          cases hm

/-! ### Building blocks -/

/-- A round of the loop of `command_event` with its entries. -/
def loggedRound (c : Clocks) (sq : Serialqueue) :
    Option (Serialqueue × Option (List UInt8) × List Entry) :=
  match checkSendCommand c sq with
  | (.now, sq₁) => (buildAndSendCommand sq₁).map fun (sq', block) =>
    (sq', some block, [.reached c.ackClock,
      .built sq₁.sendSeq (fillMessages (readyCount sq₁) sq₁ []) block])
  | (_, sq₁) => some (sq₁, none, if windowFull sq then [] else [.reached c.ackClock])

/-- The entries are all it adds to `commandRound`. -/
theorem commandRound_eq (c : Clocks) (sq : Serialqueue) :
    commandRound c sq = (loggedRound c sq).map fun r => (r.1, r.2.1) := by
  rw [commandRound, loggedRound]
  obtain ⟨wake, sq₁⟩ := checkSendCommand c sq
  cases wake with
  | now =>
    dsimp only
    rw [Option.map_map]
    rfl
  | never => rfl
  | later => rfl

/-- The loop of `command_event`; `cs` are the clocks of its rounds. -/
def eventLoop (cs : ℕ → Clocks) : ℕ → ℕ → Serialqueue →
    Option (Serialqueue × List Entry)
  | 0, _, _ => none
  | fuel + 1, k, sq =>
    match loggedRound (cs k) sq with
    | none => none
    | some (sq, none, log) => some (sq, log)
    | some (sq, some _, log) =>
      (eventLoop cs fuel (k + 1) sq).map fun (sq, more) => (sq, log ++ more)

/-- `command_event`: no more blocks are built than fit into the window. -/
def commandEvent (cs : ℕ → Clocks) (sq : Serialqueue) : Option (Serialqueue × List Entry) :=
  eventLoop cs (maxPendingBlocks + 1) 0 sq

/-- Moving the messages that are due. -/
theorem moveStalled_advances (hs : Sent sq) (hq : Queued sq) (c : Clocks) (kick : ℕ) :
    Advances sq [.reached c.ackClock] { moveStalled c sq with needKickClock := kick } := by
  refine ⟨hs.of_acks rfl, { hq.moveStalled c with }, fun cq => ?_, ?_, fun before hdue => ?_, ?_⟩
  · show waitingOf sq.pendingQueues cq ++ [] =
      waitingOf (sq.pendingQueues.map (moveDue c.ackClock)) cq
    rw [append_nil, waitingOf_moveDue]
  · show sq.readyBytes + _ + (sq.upcomingBytes - _) ≤ sq.readyBytes + sq.upcomingBytes + 0
    omega
  · refine moveStalled_ready (fun q hmem qm hqm => (hdue q hmem qm hqm).append _) ?_
    intro qm hle
    exact ⟨c.ackClock, mem_append_right _ mem_cons_self, hle⟩
  · intro before _ pre entry post h
    obtain ⟨-, rfl⟩ := eq_of_singleton h
    exact trivial

theorem buildAndSendCommand_eq {sq₁ : Serialqueue} {payload : List UInt8}
    (h : fillBlock (readyCount sq) sq [] = some (sq₁, payload)) :
    buildAndSendCommand sq = some (storeBlock sq₁ (addFrame (seqByte sq₁.sendSeq) payload),
      addFrame (seqByte sq₁.sendSeq) payload) := by
  rw [buildAndSendCommand, h]
  rfl

theorem Sent.storeBlock (h : Sent sq) {block : List UInt8}
    (hroom : sq.sentQueue.length < maxPendingBlocks) (hblock : block.length ≤ messageMax) :
    Sent (storeBlock sq block) := by
  refine ⟨h.serial, ?_, ?_, ?_, ?_⟩
  · have hwf : sq.sendSeq = sq.receiveSeq + sq.sentQueue.length := h.wellFormed
    show sq.sendSeq + 1 = sq.receiveSeq + (sq.sentQueue ++ [block]).length
    rw [length_append, length_singleton]
    omega
  · show (sq.sentQueue ++ [block]).length ≤ maxPendingBlocks
    rw [length_append, length_singleton]
    exact hroom
  · show sq.needAckBytes + block.length = blockSum (sq.sentQueue ++ [block])
    rw [blockSum_append, h.bytes]
    exact congrArg _ (add_zero _).symm
  · exact forall_mem_append.mpr ⟨h.short, forall_mem_singleton.mpr hblock⟩

/-- Building a block while there is room in the window. -/
theorem buildAndSendCommand_advances (hs : Sent sq) (hq : Queued sq)
    (hroom : sq.sentQueue.length < maxPendingBlocks) :
    ∃ sq' block, buildAndSendCommand sq = some (sq', block) ∧
      sq'.sentQueue = sq.sentQueue ++ [block] ∧
      Advances sq [.built sq.sendSeq (fillMessages (readyCount sq) sq []) block] sq' := by
  have hempty : ([] : List UInt8).length ≤ messagePayloadMax := Nat.zero_le _
  obtain ⟨sq₁, payload, hfill, hfilled⟩ := fillBlock_filled hq (le_refl _) hempty
  have hs₁ := hs.of_acks hfilled.acks
  obtain ⟨hsend, hrecv, hsent, hdebug⟩ := Core.mk.inj (congrArg Acks.core hfilled.acks)
  have hblock := addFrame_length_le (seqByte sq₁.sendSeq) hfilled.short
  have hroom₁ : sq₁.sentQueue.length < maxPendingBlocks := by
    rw [show sq₁.sentQueue = sq.sentQueue from hsent]
    exact hroom
  refine ⟨storeBlock sq₁ _, _, buildAndSendCommand_eq hfill, ?_, ?_⟩
  · show sq₁.sentQueue ++ _ = _
    rw [show sq₁.sentQueue = sq.sentQueue from hsent]
  · refine ⟨hs₁.storeBlock hroom₁ hblock, { hfilled.queued with }, fun cq => ?_,
      hfilled.held.trans (le_add_of_nonneg_right (totalLen_nonneg _)),
      fun before hdue q hmem qm hqm => ((hfilled.ready hdue).2 q hmem qm hqm).append _, ?_⟩
    · show waitingOf sq.pendingQueues cq ++ [] =
        (messagesOf cq _ ++ []) ++ waitingOf sq₁.pendingQueues cq
      rw [append_nil, append_nil]
      exact hfilled.waiting cq
    · intro before hdue pre entry post h
      obtain ⟨rfl, rfl⟩ := eq_of_singleton h
      refine ⟨?_, hblock, fun m hm => ?_⟩
      · rw [hfilled.bytes, show sq₁.sendSeq = sq.sendSeq from hsend]
        rfl
      · rw [append_nil]
        exact (hfilled.ready hdue).1 m hm

/-- A window that is not full has room for a block. -/
theorem Sent.lt_of_not_windowFull (h : Sent sq) (hfull : ¬ windowFull sq) :
    sq.sentQueue.length < maxPendingBlocks := by
  have hwf : sq.sendSeq = sq.receiveSeq + sq.sentQueue.length := h.wellFormed
  by_contra hge
  exact hfull (.inl ⟨by omega, h.serial⟩)

/-- **A ROUND** of `command_event` always ends, with at most one block more. -/
theorem loggedRound_advances (hs : Sent sq) (hq : Queued sq) (c : Clocks) :
    ∃ sq' block log, loggedRound c sq = some (sq', block, log) ∧ Advances sq log sq' ∧
      (block.isSome → sq'.sentQueue.length = sq.sentQueue.length + 1) := by
  rcases checkSendCommand_cases c sq with ⟨hfull, hcheck⟩ | ⟨hroom, wake, kick, hcheck⟩
  · refine ⟨sq, none, [], ?_, Advances.refl hs hq, nofun⟩
    rw [loggedRound, hcheck]
    dsimp only
    rw [if_pos hfull]
  · have hmove := moveStalled_advances hs hq c kick
    cases wake with
    | now =>
      obtain ⟨sq', block, hbuild, hsent, hadd⟩ := buildAndSendCommand_advances
        hmove.sent hmove.queued (hs.lt_of_not_windowFull hroom)
      refine ⟨sq', some block, _, ?_, hmove.trans hadd, fun _ => ?_⟩
      · rw [loggedRound, hcheck]
        dsimp only
        rw [hbuild]
        rfl
      · rw [hsent, length_append]
        rfl
    | never | later =>
      refine ⟨_, none, _, ?_, hmove, nofun⟩
      rw [loggedRound, hcheck]
      dsimp only
      rw [if_neg hroom]

/-- The loop ends before the window overflows. -/
theorem eventLoop_advances {cs : ℕ → Clocks} {fuel k : ℕ} (hs : Sent sq)
    (hq : Queued sq) (hfuel : maxPendingBlocks < fuel + sq.sentQueue.length) :
    ∃ sq' log, eventLoop cs fuel k sq = some (sq', log) ∧ Advances sq log sq' := by
  induction fuel generalizing k sq with
  | zero =>
    have hroom := hs.room
    omega
  | succ fuel ih =>
    obtain ⟨sq₁, block, log, hround, hadd, hlen⟩ := loggedRound_advances hs hq (cs k)
    rw [eventLoop, hround]
    cases block with
    | none => exact ⟨sq₁, log, rfl, hadd⟩
    | some block =>
      have hmore := hlen rfl
      obtain ⟨sq', rest, hloop, hadd'⟩ := @ih sq₁ (k + 1) hadd.sent hadd.queued (by omega)
      refine ⟨sq', log ++ rest, ?_, hadd.trans hadd'⟩
      dsimp only
      rw [hloop]
      rfl

theorem commandEvent_advances (hs : Sent sq) (hq : Queued sq) (cs : ℕ → Clocks) :
    ∃ sq' log, commandEvent cs sq = some (sq', log) ∧ Advances sq log sq' :=
  eventLoop_advances hs hq (by omega)

/-! ### Acknowledgements -/

/-- The loop of `update_receive_seq` keeps the count of bytes, and takes blocks from
    the front only. -/
theorem popSent_bytes {rseq : ℕ} {queue : List (List UInt8)} {sentSeq : ℕ}
    (h : sq.needAckBytes = blockSum queue) :
    (popSent rseq queue sentSeq sq).needAckBytes =
        blockSum (popSent rseq queue sentSeq sq).sentQueue ∧
      (popSent rseq queue sentSeq sq).sentQueue <:+ queue := by
  fun_induction popSent rseq queue sentSeq sq with
  | case1 => exact ⟨h, suffix_refl _⟩
  | case2 sent rest sentSeq sq sq' hfound =>
    rw [blockSum_cons] at h
    exact ⟨sub_eq_of_eq_add' h, suffix_cons _ _⟩
  | case3 sent rest sentSeq sq sq' hseq ih =>
    rw [blockSum_cons] at h
    obtain ⟨hsum, hsuffix⟩ := ih (sub_eq_of_eq_add' h)
    exact ⟨hsum, hsuffix.trans (suffix_cons _ _)⟩

/-- `update_receive_seq` for a number above `receive_seq`. -/
theorem Sent.updateReceiveSeq (h : Sent sq) {rseq : ℕ} (hlt : sq.receiveSeq < rseq) :
    Sent (updateReceiveSeq sq rseq) := by
  obtain ⟨hbytes, hsuffix⟩ := @popSent_bytes sq rseq sq.sentQueue sq.receiveSeq h.bytes
  obtain ⟨send, sent, need, last, hframe⟩ := popSent_frame rseq sq.sentQueue sq.receiveSeq sq
  refine ⟨?_, popSent_count hlt h.wellFormed, ?_, hbytes, fun block hmem =>
    h.short block (hsuffix.subset hmem)⟩
  · show (popSent rseq sq.sentQueue sq.receiveSeq sq).debugFile = false
    rw [hframe]
    exact h.serial
  · exact hsuffix.length_le.trans h.room

/-- `handle_message` on any block, also at the start of a connection. -/
theorem handleMessage_sent (h : Sent sq) (input : List UInt8) :
    Sent (handleMessage sq input) ∧ (handleMessage sq input).queues = sq.queues := by
  -- the parts behind `update_receive_seq` only notify
  have hrest : ∀ {sq' : Serialqueue} (rseq : ℕ), Sent sq' →
      Sent (processMessage (notifyDone sq' rseq input.length) rseq input) ∧
        (processMessage (notifyDone sq' rseq input.length) rseq input).queues = sq'.queues := by
    intro sq' rseq h'
    obtain ⟨ack, timer, receive, notify, hframe, -⟩ := processMessage_frame sq' rseq input
    rw [hframe]
    exact ⟨{ h' with }, rfl⟩
  unfold handleMessage
  simp only
  split
  · exact ⟨h, rfl⟩
  split
  · next hnew =>
      have hlt : sq.receiveSeq < rseqOf sq input :=
        lt_of_le_of_ne (Nat.le_add_right ..) (Ne.symm hnew)
      obtain ⟨hsent, hqueues⟩ := hrest (rseqOf sq input) (h.updateReceiveSeq hlt)
      obtain ⟨send, sent, need, last, hframe⟩ :=
        popSent_frame (rseqOf sq input) sq.sentQueue sq.receiveSeq sq
      refine ⟨hsent, hqueues.trans ?_⟩
      show (popSent (rseqOf sq input) sq.sentQueue sq.receiveSeq sq).queues = sq.queues
      rw [hframe]
      rfl
  · exact hrest _ h

theorem handleMessage_advances (hs : Sent sq) (hq : Queued sq) (input : List UInt8) :
    Advances sq [] (handleMessage sq input) := by
  obtain ⟨hsent, hqueues⟩ := handleMessage_sent hs input
  exact Advances.silent hsent hq hqueues

theorem retransmitEvent_advances (hs : Sent sq) (hq : Queued sq) :
    Advances sq [] (retransmitEvent sq).1 :=
  Advances.silent (hs.congr rfl rfl) hq rfl

/-! ## The command queues as objects -/

/-- The serial queue with all command queues: those that are not on `pending_queues` are `idle`. -/
structure Host where
  sq : Serialqueue
  idle : ℕ → CommandQueue := fun cq => { id := cq }

/-- The queue is on `pending_queues`. -/
def Host.Pending (h : Host) (cq : ℕ) : Prop := cq ∈ h.sq.pendingQueues.map CommandQueue.id

instance (h : Host) (cq : ℕ) : Decidable (h.Pending cq) := inferInstanceAs (Decidable (cq ∈ _))

/-- The queue, wherever it is. -/
def Host.queue (h : Host) (cq : ℕ) : CommandQueue :=
  (h.sq.pendingQueues.find? fun q => q.id = cq).getD (h.idle cq)

/-- `serialqueue_send_batch`: a queue whose lists are both empty goes to the end of
    `pending_queues`. -/
def Host.sendBatch (h : Host) (cq : ℕ) (msgs : List QueueMessage) : Host :=
  let msgs := msgs.map clampMinClock
  let len := totalLen msgs
  match msgs with
  | [] => h
  | qm :: _ =>
    if len = 0 then h
    else
      let q := h.queue cq
      let joined : CommandQueue := ⟨cq, q.readyQueue, q.upcomingQueue ++ msgs⟩
      let sq := { h.sq with
        upcomingBytes := h.sq.upcomingBytes + len
        needKickClock := if qm.minClock < h.sq.needKickClock then 0 else h.sq.needKickClock }
      if q.readyQueue = [] ∧ q.upcomingQueue = [] then
        { h with sq := { sq with pendingQueues := sq.pendingQueues ++ [joined] } }
      else if h.Pending cq then
        let onList (p : CommandQueue) := if p.id = cq then joined else p
        { h with sq := { sq with pendingQueues := sq.pendingQueues.map onList } }
      else { sq := sq, idle := Function.update h.idle cq joined }

/-- The queues after blocks were built: one is taken off the list when both its lists are empty. -/
def Host.built (h : Host) (sq : Serialqueue) : Host where
  sq := sq
  idle := fun cq =>
    if h.Pending cq ∧ cq ∉ sq.pendingQueues.map CommandQueue.id then { id := cq }
    else h.idle cq

/-- `command_event`. -/
def Host.commandEvent (cs : ℕ → Clocks) (h : Host) : Option (Host × List Entry) :=
  (Serialqueue.commandEvent cs h.sq).map fun (sq, log) => (h.built sq, log)

/-- The calls that work on the queue. -/
inductive Act where
  | sendBatch (cq : ℕ) (msgs : List QueueMessage)
  | commandEvent (cs : ℕ → Clocks)
  | retransmitEvent
  | handleMessage (input : List UInt8)

/-- Batches have messages that fit. -/
def Act.Valid : Act → Prop
  | .sendBatch _ msgs => ∀ qm ∈ msgs, qm.Fits
  | _ => True

instance (act : Act) : Decidable act.Valid :=
  match act with
  | .sendBatch _ msgs => inferInstanceAs (Decidable (∀ qm ∈ msgs, qm.Fits))
  | .commandEvent _ => isTrue trivial
  | .retransmitEvent => isTrue trivial
  | .handleMessage _ => isTrue trivial

/-- One call with its entries. -/
def Host.step (h : Host) : Act → Option (Host × List Entry)
  | .sendBatch cq msgs => some (h.sendBatch cq msgs, [.queued cq msgs])
  | .commandEvent cs => h.commandEvent cs
  | .retransmitEvent => some ({ h with sq := (retransmitEvent h.sq).1 }, [])
  | .handleMessage input => some ({ h with sq := handleMessage h.sq input }, [])

/-- A run with its log; `none` is a null pointer that is followed, or a loop that does not end. -/
def Host.run (h : Host) : List Act → Option (Host × List Entry)
  | [] => some (h, [])
  | act :: acts =>
    match h.step act with
    | none => none
    | some (h', log) => (h'.run acts).map fun (h'', more) => (h'', log ++ more)

/-- The counters are right, and only queues on the list hold messages. -/
structure Host.Inv (h : Host) : Prop where
  sent : Sent h.sq
  queued : Queued h.sq
  idle : ∀ cq, ¬ h.Pending cq → (h.idle cq).waiting = []

/-- Looking a queue up on the list. -/
theorem find_queue {q : CommandQueue} (hnodup : (qs.map CommandQueue.id).Nodup) (hq : q ∈ qs) :
    qs.find? (fun p => p.id = q.id) = some q ∧ waitingOf qs q.id = q.waiting := by
  induction qs with
  | nil => exact nomatch hq
  | cons p qs ih =>
    rw [map_cons, nodup_cons] at hnodup
    rcases mem_cons.mp hq with rfl | hq
    · refine ⟨find?_cons_of_pos (decide_eq_true rfl), ?_⟩
      rw [waitingOf_cons, if_pos rfl, waitingOf_eq_nil hnodup.1, append_nil]
    · have hne : p.id ≠ q.id := fun heq => hnodup.1 (heq ▸ mem_map_of_mem hq)
      obtain ⟨hfind, hwaiting⟩ := ih hnodup.2 hq
      refine ⟨?_, ?_⟩
      · rw [find?_cons_of_neg (by simpa using hne)]
        exact hfind
      · rw [waitingOf_cons, if_neg hne, hwaiting]
        rfl

/-- A queue that is on the list, or not. -/
theorem Host.Inv.queue_cases (hi : h.Inv) (cq : ℕ) :
    (∃ q ∈ h.sq.pendingQueues, q.id = cq ∧ h.queue cq = q ∧ h.Pending cq) ∨
      (h.queue cq = h.idle cq ∧ ¬ h.Pending cq) := by
  by_cases hp : h.Pending cq
  · obtain ⟨q, hq, rfl⟩ := mem_map.mp hp
    refine .inl ⟨q, hq, rfl, ?_, hp⟩
    rw [Host.queue, (find_queue hi.queued.tidy.nodup hq).1]
    rfl
  · refine .inr ⟨?_, hp⟩
    have hnone : h.sq.pendingQueues.find? (fun q => q.id = cq) = none := by
      refine find?_eq_none.mpr fun q hq hid => hp ?_
      rw [← of_decide_eq_true hid]
      exact mem_map_of_mem hq
    rw [Host.queue, hnone]
    rfl

/-- What waits in the queue as an object is what waits on the list. -/
theorem Host.Inv.queue_waiting (hi : h.Inv) (cq : ℕ) :
    (h.queue cq).waiting = waitingOf h.sq.pendingQueues cq := by
  rcases hi.queue_cases cq with ⟨q, hq, rfl, hqueue, -⟩ | ⟨hqueue, hp⟩
  · rw [hqueue, (find_queue hi.queued.tidy.nodup hq).2]
  · rw [hqueue, hi.idle cq hp, waitingOf_eq_nil hp]

/-- **ON THE LIST EXACTLY IF IT HOLDS A MESSAGE**. -/
theorem Host.Inv.pending_iff (hi : h.Inv) (cq : ℕ) : h.Pending cq ↔ (h.queue cq).waiting ≠ [] := by
  rcases hi.queue_cases cq with ⟨q, hq, -, hqueue, hp⟩ | ⟨hqueue, hp⟩
  · rw [hqueue]
    exact ⟨fun _ => hi.queued.tidy.nonempty q hq, fun _ => hp⟩
  · rw [hqueue, hi.idle cq hp]
    exact ⟨fun h => absurd h hp, fun h => absurd rfl h⟩

theorem joinUpcoming_of_not_mem {cq : ℕ}
    (h : cq ∉ qs.map CommandQueue.id) (msgs : List QueueMessage) :
    joinUpcoming cq msgs qs = qs ++ [{ id := cq, upcomingQueue := msgs }] := by
  induction qs with
  | nil => rfl
  | cons q qs ih =>
    rw [map_cons, mem_cons, not_or] at h
    rw [joinUpcoming, if_neg (Ne.symm h.1), ih h.2]
    rfl

theorem joinUpcoming_of_mem {q : CommandQueue}
    (hnodup : (qs.map CommandQueue.id).Nodup) (hq : q ∈ qs) (msgs : List QueueMessage) :
    joinUpcoming q.id msgs qs = qs.map fun p =>
      if p.id = q.id then ⟨q.id, q.readyQueue, q.upcomingQueue ++ msgs⟩ else p := by
  induction qs with
  | nil => exact nomatch hq
  | cons p qs ih =>
    rw [map_cons, nodup_cons] at hnodup
    rw [joinUpcoming, map_cons]
    rcases mem_cons.mp hq with rfl | hq
    · have hothers : qs.map (fun p => if p.id = q.id then
          (⟨q.id, q.readyQueue, q.upcomingQueue ++ msgs⟩ : CommandQueue) else p) = qs := by
        refine (map_congr_left fun p hp => if_neg fun heq => hnodup.1 ?_).trans (map_id _)
        rw [← heq]
        exact mem_map_of_mem hp
      rw [if_pos rfl, if_pos rfl, hothers]
    · have hne : p.id ≠ q.id := fun heq => hnodup.1 (heq ▸ mem_map_of_mem hq)
      rw [if_neg hne, if_neg hne, ih hnodup.2 hq]

/-- The test for an empty queue does what `serialqueueSendBatch` does with the list. -/
theorem Host.Inv.sendBatch_eq (hi : h.Inv) (cq : ℕ) (msgs : List QueueMessage) :
    h.sendBatch cq msgs = { h with sq := serialqueueSendBatch h.sq cq msgs } := by
  rw [Host.sendBatch, serialqueueSendBatch]
  cases msgs with
  | nil => rfl
  | cons qm msgs =>
    rw [map_cons]
    dsimp only
    split
    · rfl
    rcases hi.queue_cases cq with ⟨q, hq, rfl, hqueue, hp⟩ | ⟨hqueue, hp⟩
    · have hsome : ¬ (q.readyQueue = [] ∧ q.upcomingQueue = []) := fun hempty =>
        hi.queued.tidy.nonempty q hq (append_eq_nil_iff.mpr hempty)
      rw [hqueue, if_neg hsome, if_pos hp, joinUpcoming_of_mem hi.queued.tidy.nodup hq]
    · have hempty := append_eq_nil_iff.mp (hi.idle cq hp)
      rw [hqueue, if_pos hempty, joinUpcoming_of_not_mem hp, hempty.1, hempty.2]
      rfl

/-! ## Runs -/

/-- **A CALL** succeeds and keeps the invariant. -/
theorem Host.Inv.step (hi : h.Inv) {act : Act} (hact : act.Valid) :
    ∃ h' log, h.step act = some (h', log) ∧ h'.Inv ∧ Advances h.sq log h'.sq := by
  cases act with
  | sendBatch cq msgs =>
    have hadd := serialqueueSendBatch_advances hi.sent hi.queued cq hact
    refine ⟨h.sendBatch cq msgs, [.queued cq msgs], rfl, ?_⟩
    rw [hi.sendBatch_eq]
    refine ⟨⟨hadd.sent, hadd.queued, fun cq' hp => hi.idle cq' fun hold => hp ?_⟩, hadd⟩
    -- no queue leaves the list
    cases msgs with
    | nil => exact hold
    | cons qm msgs =>
      obtain ⟨kick, heq⟩ := @serialqueueSendBatch_eq h.sq cq qm msgs hact
      show cq' ∈ (serialqueueSendBatch h.sq cq (qm :: msgs)).pendingQueues.map _
      rw [heq, joinUpcoming_ids]
      split
      · exact hold
      · exact mem_append_left _ hold
  | commandEvent cs =>
    obtain ⟨sq', log, hevent, hadd⟩ := commandEvent_advances hi.sent hi.queued cs
    refine ⟨h.built sq', log, ?_, ⟨hadd.sent, hadd.queued, fun cq hp => ?_⟩, hadd⟩
    · rw [Host.step, Host.commandEvent, hevent]
      rfl
    · show (if h.Pending cq ∧ cq ∉ sq'.pendingQueues.map CommandQueue.id then
        ({ id := cq } : CommandQueue) else h.idle cq).waiting = []
      by_cases hold : h.Pending cq
      · rw [if_pos ⟨hold, hp⟩]
        rfl
      · rw [if_neg fun hboth => hold hboth.1]
        exact hi.idle cq hold
  | retransmitEvent =>
    have hadd := retransmitEvent_advances hi.sent hi.queued
    exact ⟨_, [], rfl, ⟨hadd.sent, hadd.queued, hi.idle⟩, hadd⟩
  | handleMessage input =>
    have hadd := handleMessage_advances hi.sent hi.queued input
    have hqueues := congrArg Prod.fst (handleMessage_sent hi.sent input).2
    refine ⟨_, [], rfl, ⟨hadd.sent, hadd.queued, fun cq hp => hi.idle cq fun hold => hp ?_⟩, hadd⟩
    show cq ∈ (handleMessage h.sq input).pendingQueues.map CommandQueue.id
    rw [show (handleMessage h.sq input).pendingQueues = h.sq.pendingQueues from hqueues]
    exact hold

/-- **A RUN** does. -/
theorem Host.Inv.run (hi : h.Inv) {acts : List Act} (hacts : ∀ act ∈ acts, act.Valid) :
    ∃ h' log, h.run acts = some (h', log) ∧ h'.Inv ∧ Advances h.sq log h'.sq := by
  induction acts generalizing h with
  | nil => exact ⟨h, [], rfl, hi, Advances.refl hi.sent hi.queued⟩
  | cons act acts ih =>
    rw [forall_mem_cons] at hacts
    obtain ⟨h₁, log, hstep, hi₁, hadd⟩ := hi.step hacts.1
    obtain ⟨h', more, hrun, hi', hadd'⟩ := ih hi₁ hacts.2
    refine ⟨h', log ++ more, ?_, hi', hadd.trans hadd'⟩
    rw [Host.run, hstep]
    dsimp only
    rw [hrun]
    rfl

/-- The queue of `serialqueue_alloc` for a serial port, with a receive window. -/
def Host.alloc (receiveWindow : ℤ) : Host where
  sq := { receiveWindow := receiveWindow }

theorem Host.inv_alloc (receiveWindow : ℤ) : (Host.alloc receiveWindow).Inv :=
  ⟨⟨rfl, wellFormed_alloc, Nat.zero_le _, rfl, nofun⟩, ⟨⟨nodup_nil, nofun, nofun⟩, rfl, rfl⟩,
    fun _ _ => rfl⟩

/-- **BOOKKEEPING OF THE SEND QUEUE**: every run of calls with messages that fit ends, and then
    the counters agree with the blocks and the queues, a queue is on the list exactly if it
    holds a message, and each message is in one block, after its clock was reached, or still
    waits, in order.  The counters of bytes fit while fewer than `2 ^ 31` bytes are queued. -/
theorem send_bookkeeping (receiveWindow : ℤ) {acts : List Act} (hacts : ∀ act ∈ acts, act.Valid) :
    ∃ h log, (Host.alloc receiveWindow).run acts = some (h, log) ∧
      h.sq.sentQueue.length = h.sq.sendSeq - h.sq.receiveSeq ∧ h.sq.receiveSeq ≤ h.sq.sendSeq ∧
      h.sq.sentQueue.length ≤ maxPendingBlocks ∧
      h.sq.needAckBytes = (h.sq.sentQueue.map fun block => (block.length : ℤ)).sum ∧
      h.sq.readyBytes = (h.sq.pendingQueues.map fun q => totalLen q.readyQueue).sum ∧
      h.sq.upcomingBytes = (h.sq.pendingQueues.map fun q => totalLen q.upcomingQueue).sum ∧
      0 ≤ h.sq.readyBytes ∧ 0 ≤ h.sq.upcomingBytes ∧
      h.sq.readyBytes + h.sq.upcomingBytes ≤ queuedBytes log ∧
      (∀ cq, h.Pending cq ↔ (h.queue cq).readyQueue ++ (h.queue cq).upcomingQueue ≠ []) ∧
      (∀ cq, (queuedOf cq log).map clampMinClock =
        packedOf cq log ++ ((h.queue cq).readyQueue ++ (h.queue cq).upcomingQueue)) ∧
      ∀ pre seq msgs block post, log = pre ++ .built seq msgs block :: post →
        block = addFrame (seqByte seq) (msgs.flatMap fun m => m.2.msg) ∧ block.length ≤ messageMax ∧
          ∀ m ∈ msgs, ∃ ackClock, .reached ackClock ∈ pre ∧ m.2.minClock ≤ ackClock := by
  obtain ⟨h, log, hrun, hi, hadd⟩ := (Host.inv_alloc receiveWindow).run hacts
  have hwf : h.sq.sendSeq = h.sq.receiveSeq + h.sq.sentQueue.length := hi.sent.wellFormed
  refine ⟨h, log, hrun, by omega, by omega, hi.sent.room, hi.sent.bytes, hi.queued.ready,
    hi.queued.upcoming, hi.queued.nonneg.1, hi.queued.nonneg.2, hadd.held.trans_eq (zero_add _),
    hi.pending_iff, fun cq => ?_, fun pre seq msgs block post heq => ?_⟩
  · exact (hadd.waiting cq).trans (congrArg _ (hi.queue_waiting cq).symm)
  · -- nothing is ready at the start
    exact hadd.fine [] nofun pre _ post heq

/-- Two queues, and a message that is not due before clock 50. -/
def sampleActs : List Act :=
  [.sendBatch 1 [{ msg := [1, 2], minClock := 10 }, { msg := [3], minClock := 50 }],
    .sendBatch 2 [{ msg := [4], reqClock := 5 }],
    .commandEvent fun _ => ⟨20, 0, false, 0⟩, .handleMessage (addFrame 0x12 []),
    .retransmitEvent, .commandEvent fun _ => ⟨60, 0, false, 0⟩]

/-- The messages of the first queue go into two blocks, the first of them together
    with that of the second queue. -/
theorem send_bookkeeping_sample : ∃ h log,
    (Host.alloc 192).run sampleActs = some (h, log) ∧ h.sq.sentQueue.length ≤ 12 ∧
      .built 2 [(1, { msg := [3], minClock := 50 })] (addFrame 0x12 [3]) ∈ log ∧
      ∀ cq, (queuedOf cq log).map clampMinClock =
        packedOf cq log ++ ((h.queue cq).readyQueue ++ (h.queue cq).upcomingQueue) := by
  obtain ⟨h, log, hrun, -, -, hroom, -, -, -, -, -, -, -, hmessages, -⟩ :=
    send_bookkeeping 192 (by decide : ∀ act ∈ sampleActs, act.Valid)
  have hbuilt : ∀ r ∈ (Host.alloc 192).run sampleActs,
      .built 2 [(1, { msg := [3], minClock := 50 })] (addFrame 0x12 [3]) ∈ r.2 := by
    decide +kernel
  exact ⟨h, log, hrun, hroom, hbuilt (h, log) hrun, hmessages⟩

end Serialqueue
