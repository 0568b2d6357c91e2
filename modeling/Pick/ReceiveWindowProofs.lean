import Pick.FramingProofs
import Pick.LinkProofs
import Pick.SendRunProofs

/-! # The receive window (`src/generic/serial_irq.c`)

The host's queue against a firmware with an interrupt driven serial port.  The
bytes of a block go one by one into `receive_buf`, and `console_task` finds a
block there, dispatches it, pops it and acknowledges it, in this order.  Every
message of the firmware carries `next_sequence`, so one that is sent from a
command handler acknowledges a block that is still in the buffer.

The host may send while the bytes it waits for stay below `receive_window`. It makes
up for the block that may still be there with `last_ack_bytes`. -/

namespace ReceiveWindow

open Link List Msgblock Serialqueue

/-! ## Steps of both ends -/

/-- `RX_BUFFER_SIZE`. -/
def rxBufferSize : ℕ := 192

/-- `serial_rx_byte` on the bytes of `receive_buf`. -/
def serialRxByte (receiveBuf : List UInt8) (data : UInt8) : List UInt8 :=
  if receiveBuf.length ≥ rxBufferSize then receiveBuf else receiveBuf ++ [data]

/-- `console_pop_input`: it starts again when a byte arrives, so the bytes leave
    the buffer in one step. -/
def consolePopInput (receiveBuf : List UInt8) (len : ℕ) : List UInt8 := receiveBuf.drop len

/-- How far `console_task` is. -/
inductive Task where
  | idle
  /-- In `command_dispatch`, before the block is popped. -/
  | dispatching (popCount : ℕ)
  /-- `command_find_block` returned -1, nothing is popped yet. -/
  | refused (popCount : ℕ)
  /-- Before `command_send_ack`. -/
  | popped
  deriving DecidableEq, Repr

/-- What `console_task` does after `command_find_block`. -/
def Task.found (r : FindResult) : Task :=
  if r.ret > 0 then .dispatching r.popCount
  else if r.ret < 0 then .refused r.popCount
  else .idle

/-- Both ends, with the bytes on the wire to the firmware and the messages on the
    way to the host.  `intact` says that nothing was lost, refused or sent again. -/
structure State where
  sq : Serialqueue
  wire : List UInt8 := []
  receiveBuf : List UInt8 := []
  find : FindState := {}
  task : Task := .idle
  toHost : List (List UInt8) := []
  intact : Bool := true
  deriving DecidableEq, Repr

/-- The bytes the host has sent that are not popped yet. -/
def State.unpopped (s : State) : ℕ := s.receiveBuf.length + s.wire.length

/-- One step of the host, the firmware or the line. -/
inductive Step : State → State → Prop
  /-- Messages are queued. -/
  | sendBatch (s : State) (cq : ℕ) (msgs : List QueueMessage) :
      Step s { s with sq := serialqueueSendBatch s.sq cq msgs }
  /-- `command_event` finds nothing to send yet. -/
  | wait (s : State) (c : Clocks) (sq' : Serialqueue)
      (h : commandRound c s.sq = some (sq', none)) : Step s { s with sq := sq' }
  /-- `command_event` builds and writes a block. -/
  | build (s : State) (c : Clocks) (sq' : Serialqueue) (block : List UInt8)
      (h : commandRound c s.sq = some (sq', some block)) :
      Step s { s with sq := sq', wire := s.wire ++ block }
  /-- `retransmit_event` writes a SYNC and all blocks again. -/
  | retransmit (s : State) (h : s.sq.retransmitTimer ≠ .never) :
      Step s { s with
        sq := (retransmitEvent s.sq).1
        wire := s.wire ++ messageSync :: (retransmitEvent s.sq).2.flatten
        intact := false }
  /-- The host reads a message. -/
  | hostReceive (s : State) (block : List UInt8) (rest : List (List UInt8))
      (h : s.toHost = block :: rest) :
      Step s { s with sq := hostInput s.sq block, toHost := rest }
  /-- Bytes to the firmware are lost or changed. -/
  | disturb (s : State) (wire : List UInt8) : Step s { s with wire := wire, intact := false }
  /-- Messages to the host are lost. -/
  | loseToHost (s : State) (toHost : List (List UInt8))
      (h : toHost.Sublist s.toHost) : Step s { s with toHost := toHost }
  /-- A byte arrives; one that finds the buffer full is lost. -/
  | rxByte (s : State) (data : UInt8) (rest : List UInt8) (h : s.wire = data :: rest) :
      Step s { s with
        wire := rest
        receiveBuf := serialRxByte s.receiveBuf data
        intact := s.intact && decide (s.receiveBuf.length < rxBufferSize) }
  /-- `console_task` looks for a block; one that is refused is lost. -/
  | find (s : State) (h : s.task = .idle) :
      Step s { s with
        find := (commandFindBlock s.find s.receiveBuf).state
        task := Task.found (commandFindBlock s.find s.receiveBuf)
        toHost := s.toHost ++ if (commandFindBlock s.find s.receiveBuf).nak then
          [addFrame (commandFindBlock s.find s.receiveBuf).state.nextSequence []]
          else []
        intact := s.intact && decide (0 ≤ (commandFindBlock s.find s.receiveBuf).ret) }
  /-- A data message is sent, by a command handler or by another task. -/
  | sendData (s : State) (payload : List UInt8) (hne : payload ≠ [])
      (hlen : payload.length ≤ messagePayloadMax) :
      Step s { s with toHost := s.toHost ++ [addFrame s.find.nextSequence payload] }
  /-- The block is popped after its dispatch. -/
  | pop (s : State) (popCount : ℕ) (h : s.task = .dispatching popCount) :
      Step s { s with
        receiveBuf := consolePopInput s.receiveBuf popCount
        task := .popped }
  /-- Refused bytes are popped. -/
  | discard (s : State) (popCount : ℕ) (h : s.task = .refused popCount) :
      Step s { s with
        receiveBuf := consolePopInput s.receiveBuf popCount
        task := .idle }
  /-- `command_send_ack`; `console_sendf` drops the ack when it has no space. -/
  | ack (s : State) (space : Bool) (h : s.task = .popped) :
      Step s { s with
        task := .idle
        toHost := s.toHost ++ if space then [addFrame s.find.nextSequence []] else [] }
  /-- `sched_shutdown` leaves `console_task` by a long jump, wherever it is. -/
  | shutdown (s : State) : Step s { s with task := .idle }

/-- Host and firmware agree on the sequence number and nothing is under way. -/
structure InSync (s : State) : Prop where
  sent : Sent s.sq
  acked : s.sq.sentQueue = []
  lastAckSeq : s.sq.lastAckSeq ≤ s.sq.receiveSeq
  lastAckBytes : 0 ≤ s.sq.lastAckBytes
  synced : s.find.needSync = false
  sequence : s.find.nextSequence = seqByte s.sq.receiveSeq
  wire : s.wire = []
  receiveBuf : s.receiveBuf = []
  task : s.task = .idle
  toHost : s.toHost = []

/-! ## What the host's functions do to the counters -/

variable {block payload buf rest : List UInt8} {sq sq' : Serialqueue} {n : ℕ}
  {blocks : List (List UInt8)} {s s' : State}

/-- `update_receive_seq`: `last_ack_bytes` is the length of the last block taken off
    `sent_queue`. -/
theorem popSent_lastAckBytes {k : ℕ} {queue : List (List UInt8)}
    {sentSeq : ℕ} (hget : queue[k]? = some block) :
    (popSent (sentSeq + (k + 1)) queue sentSeq sq).lastAckBytes = block.length := by
  induction queue generalizing sentSeq sq k with
  | nil => exact nomatch hget
  | cons sent rest ih =>
    rw [popSent]
    cases k with
    | zero =>
      obtain rfl : sent = block := Option.some.inj hget
      rw [if_pos (by omega)]
    | succ k =>
      rw [if_neg (by omega), show sentSeq + (k + 1 + 1) = sentSeq + 1 + (k + 1) by omega]
      exact ih hget

/-- What a message does to the counters, besides `handleMessage_core`. -/
structure Heard (sq : Serialqueue) (input : List UInt8) (sq' : Serialqueue) : Prop where
  window : sq'.receiveWindow = sq.receiveWindow
  lastAckSeq : sq'.lastAckSeq = sq.lastAckSeq ∨
    input.length = messageMin ∧ sq'.lastAckSeq = rseqOf sq input
  same : rseqOf sq input = sq.receiveSeq → sq'.lastAckBytes = sq.lastAckBytes
  lastAckBytes : ∀ k block, rseqOf sq input = sq.receiveSeq + (k + 1) →
    sq.sentQueue[k]? = some block → sq'.lastAckBytes = block.length

/-- A message that acknowledges no more than was sent. -/
theorem handleMessage_heard {input : List UInt8}
    (hle : rseqOf sq input ≤ sq.sendSeq) : Heard sq input (handleMessage sq input) := by
  unfold handleMessage
  simp only [show sq.receiveSeq + ((input.getD 1 0).toNat
    + (16 - sq.receiveSeq % 16)) % 16 = rseqOf sq input from rfl]
  rw [if_neg (by omega)]
  by_cases hnew : rseqOf sq input ≠ sq.receiveSeq
  · rw [if_pos hnew]
    obtain ⟨ack, timer, receive, notify, hframe, hack⟩ :=
      processMessage_frame (updateReceiveSeq sq (rseqOf sq input)) (rseqOf sq input) input
    obtain ⟨send, sent, need, last, hpop⟩ :=
      popSent_frame (rseqOf sq input) sq.sentQueue sq.receiveSeq sq
    have hwindow := congrArg receiveWindow hpop
    have hseq := congrArg Serialqueue.lastAckSeq hpop
    rw [hframe]
    refine ⟨hwindow, ?_, fun heq => absurd heq hnew, fun k block hk hget => ?_⟩
    · exact hack.imp_left fun heq => heq.trans hseq
    · show (popSent (rseqOf sq input) sq.sentQueue sq.receiveSeq sq).lastAckBytes = block.length
      rw [hk]
      exact popSent_lastAckBytes hget
  · rw [if_neg hnew]
    obtain ⟨ack, timer, receive, notify, hframe, hack⟩ :=
      processMessage_frame sq (rseqOf sq input) input
    rw [hframe]
    refine ⟨rfl, hack, fun _ => rfl, fun k block hk => ?_⟩
    rw [not_ne_iff.mp hnew] at hk
    omega

/-! ## Blocks and messages with their numbers -/

/-- The blocks carry the numbers from `n` on. -/
def Frames : ℕ → List (List UInt8) → Prop
  | _, [] => True
  | n, block :: blocks =>
    (∃ payload, payload.length ≤ messagePayloadMax ∧
      block = addFrame (seqByte n) payload) ∧ Frames (n + 1) blocks

theorem Frames.snoc (h : Frames n blocks) (hlen : payload.length ≤ messagePayloadMax) :
    Frames n (blocks ++ [addFrame (seqByte (n + blocks.length)) payload]) := by
  induction blocks generalizing n with
  | nil => exact ⟨⟨payload, hlen, rfl⟩, trivial⟩
  | cons block blocks ih =>
    refine ⟨h.1, ?_⟩
    have hnext := ih h.2
    rw [show n + 1 + blocks.length = n + (block :: blocks).length by
      rw [length_cons]; omega] at hnext
    exact hnext

/-- Messages to the host with their numbers: they do not decrease from `low` up to
    `next`, and an ack does not count a block that is not popped. -/
def Carries (popped next : ℕ) : ℕ → List (List UInt8) → Prop
  | low, [] => low ≤ next
  | low, block :: blocks =>
    ∃ n payload, low ≤ n ∧ payload.length ≤ messagePayloadMax ∧
      block = addFrame (seqByte n) payload ∧ (payload = [] → n ≤ popped) ∧
      Carries popped next n blocks

section Carries

variable {popped next low : ℕ} {blocks : List (List UInt8)}
  (h : Carries popped next low blocks)
include h

theorem Carries.le : low ≤ next := by
  induction blocks generalizing low with
  | nil => exact h
  | cons block blocks ih =>
    obtain ⟨n, payload, hlow, -, -, -, hrest⟩ := h
    exact hlow.trans (ih hrest)

theorem Carries.weaken {low' : ℕ} (hle : low' ≤ low) : Carries popped next low' blocks := by
  cases blocks with
  | nil => exact hle.trans h
  | cons block blocks =>
    obtain ⟨n, payload, hlow, hrest⟩ := h
    exact ⟨n, payload, hle.trans hlow, hrest⟩

theorem Carries.mono {popped' next' : ℕ} (hpopped : popped ≤ popped') (hnext : next ≤ next') :
    Carries popped' next' low blocks := by
  induction blocks generalizing low with
  | nil => exact le_trans h hnext
  | cons block blocks ih =>
    obtain ⟨n, payload, hlow, hlen, hblock, hack, hrest⟩ := h
    exact ⟨n, payload, hlow, hlen, hblock, fun he => (hack he).trans hpopped, ih hrest⟩

/-- The firmware sends a message. -/
theorem Carries.snoc
    (hlen : payload.length ≤ messagePayloadMax) (hack : payload = [] → next ≤ popped) :
    Carries popped next low (blocks ++ [addFrame (seqByte next) payload]) := by
  induction blocks generalizing low with
  | nil => exact ⟨next, payload, h, hlen, rfl, hack, le_refl _⟩
  | cons block blocks ih =>
    obtain ⟨n, payload', hlow, hlen', hblock, hack', hrest⟩ := h
    exact ⟨n, payload', hlow, hlen', hblock, hack', ih hrest⟩

theorem Carries.sublist {blocks' : List (List UInt8)} (hsub : blocks'.Sublist blocks) :
    Carries popped next low blocks' := by
  induction hsub generalizing low with
  | slnil => exact h
  | cons block _ ih =>
    obtain ⟨n, payload, hlow, -, -, -, hrest⟩ := h
    exact (ih hrest).weaken hlow
  | cons_cons block _ ih =>
    obtain ⟨n, payload, hlow, hlen, hblock, hack, hrest⟩ := h
    exact ⟨n, payload, hlow, hlen, hblock, hack, ih hrest⟩

end Carries

/-- The number behind a sequence byte, when it is one of two. -/
theorem eq_of_seqByte_eq {m : ℕ} (h : seqByte n = seqByte m) (hle : n ≤ m)
    (hlt : m < n + 16) : n = m := by
  have hn := seqByte_toNat_mod n
  have hm := seqByte_toNat_mod m
  rw [h] at hn
  omega

/-- The host reads the number a message was sent with. -/
theorem rseqOf_addFrame (payload : List UInt8)
    (hle : sq.receiveSeq ≤ n) (hlt : n < sq.receiveSeq + 16) :
    rseqOf sq (addFrame (seqByte n) payload) = n := by
  have hget := addFrame_getD_one (seqByte n) payload []
  rw [append_nil] at hget
  have hmod := seqByte_toNat_mod n
  rw [rseqOf, hget]
  omega

/-! ## The host's side -/

theorem blockSum_flatten (blocks : List (List UInt8)) :
    blockSum blocks = (blocks.flatten.length : ℤ) := by
  induction blocks with
  | nil => rfl
  | cons block blocks ih =>
    rw [blockSum_cons, ih, flatten_cons, length_append]
    push_cast
    rfl

theorem blockSum_drop_le (n : ℕ) (blocks : List (List UInt8)) :
    blockSum (blocks.drop n) ≤ blockSum blocks := by
  have hsplit := blockSum_append (blocks.take n) (blocks.drop n)
  rw [take_append_drop] at hsplit
  have htake := blockSum_flatten (blocks.take n)
  omega

/-- The host while the firmware has popped the blocks below `popped` and holds `blocks`: it may have
    heard of the first of them too early, and then knows its length. -/
structure HostSide (window : ℤ) (popped : ℕ) (blocks : List (List UInt8))
    (sq : Serialqueue) : Prop where
  sent : Sent sq
  receiveWindow : sq.receiveWindow = window
  count : sq.sendSeq = popped + blocks.length
  acked : sq.receiveSeq ≤ popped ∧ blocks = sq.sentQueue.drop (popped - sq.receiveSeq) ∨
    sq.receiveSeq = popped + 1 ∧
      ∃ block, blocks = block :: sq.sentQueue ∧ sq.lastAckBytes = block.length
  lastAckSeq : sq.lastAckSeq ≤ popped
  lastAckBytes : 0 ≤ sq.lastAckBytes

namespace HostSide

variable {window : ℤ} {popped : ℕ} {blocks : List (List UInt8)} {sq : Serialqueue}

theorem of_acks (h : HostSide window popped blocks sq)
    (hacks : sq'.acks = sq.acks) : HostSide window popped blocks sq' := by
  obtain ⟨hcore, hwindow, -, hseq, hbytes, -⟩ := Acks.mk.inj hacks
  obtain ⟨hsend, hrecv, hsent, -⟩ := Core.mk.inj hcore
  refine ⟨h.sent.of_acks hacks, hwindow.trans h.receiveWindow, hsend.trans h.count, ?_,
    hseq.symm ▸ h.lastAckSeq, hbytes.symm ▸ h.lastAckBytes⟩
  rw [hrecv, hsent, hbytes]
  exact h.acked

/-- **ROOM FOR A BLOCK** of any size behind the bytes that are not popped, when the window is
    not full. -/
theorem room (h : HostSide window popped blocks sq) (hframes : Frames popped blocks)
    (hwindow : 128 ≤ window) (hfull : ¬ windowFull sq) :
    (blocks.flatten.length : ℤ) + messageMax ≤ window := by
  have hmax : (messageMax : ℤ) = 64 := rfl
  have hwf : sq.sendSeq = sq.receiveSeq + sq.sentQueue.length := h.sent.wellFormed
  rw [← blockSum_flatten]
  by_cases hnone : sq.sentQueue = []
  · -- the host waits for nothing: at most one block is left in the buffer
    rcases h.acked with ⟨-, hblocks⟩ | ⟨-, block, hblocks, -⟩
    · rw [hblocks, hnone, drop_nil]
      show (0 : ℤ) + messageMax ≤ window
      omega
    · rw [hblocks] at hframes
      obtain ⟨⟨payload, hlen, hblock⟩, -⟩ := hframes
      have hlength := addFrame_length_le (seqByte popped) hlen
      rw [← hblock] at hlength
      rw [hblocks, hnone, blockSum_cons]
      show (block.length : ℤ) + 0 + messageMax ≤ window
      omega
  · have hpos := length_pos_iff.mpr hnone
    have hbytes : sq.needAckBytes + messageMax +
        (if sq.lastAckSeq < sq.receiveSeq then sq.lastAckBytes else 0) ≤ window := by
      by_contra hover
      have hnonzero : sq.receiveWindow ≠ 0 := by
        rw [h.receiveWindow]
        omega
      refine hfull (.inr ⟨by omega, h.sent.serial, hnonzero, ?_⟩)
      rw [h.receiveWindow]
      omega
    rw [h.sent.bytes] at hbytes
    rcases h.acked with ⟨-, hblocks⟩ | ⟨hrecv, block, hblocks, hlast⟩
    · have hdrop := blockSum_drop_le (popped - sq.receiveSeq) sq.sentQueue
      rw [← hblocks] at hdrop
      have hnonneg := h.lastAckBytes
      split at hbytes
      · omega
      · omega
    · -- the block counted twice is the one that was acknowledged too early
      have hseq := h.lastAckSeq
      rw [if_pos (by omega), hlast] at hbytes
      rw [hblocks, blockSum_cons]
      omega

/-- The host writes a block. -/
theorem store (h : HostSide window popped blocks sq) (hfull : ¬ windowFull sq)
    {sq₁ : Serialqueue} (hacks : sq₁.acks = sq.acks) (hblock : block.length ≤ messageMax) :
    HostSide window popped (blocks ++ [block]) (storeBlock sq₁ block) := by
  have hroom := h.sent.lt_of_not_windowFull hfull
  have hsent : sq₁.sentQueue = sq.sentQueue := congrArg (fun a => a.core.sentQueue) hacks
  rw [← hsent] at hroom
  have h₁ := h.of_acks hacks
  have hwf : sq₁.sendSeq = sq₁.receiveSeq + sq₁.sentQueue.length := h₁.sent.wellFormed
  refine ⟨h₁.sent.storeBlock hroom hblock, h₁.receiveWindow, ?_, ?_, h₁.lastAckSeq, h₁.lastAckBytes⟩
  · show sq₁.sendSeq + 1 = popped + (blocks ++ [block]).length
    rw [length_append, length_singleton, h₁.count]
    omega
  · show sq₁.receiveSeq ≤ popped ∧
        blocks ++ [block] = (sq₁.sentQueue ++ [block]).drop (popped - sq₁.receiveSeq) ∨
      sq₁.receiveSeq = popped + 1 ∧ ∃ first, blocks ++ [block] =
        first :: (sq₁.sentQueue ++ [block]) ∧ sq₁.lastAckBytes = first.length
    rcases h₁.acked with ⟨hle, hblocks⟩ | ⟨hrecv, first, hblocks, hlast⟩
    · refine .inl ⟨hle, ?_⟩
      have hcount := h₁.count
      rw [drop_append_of_le_length (by omega), ← hblocks]
    · refine .inr ⟨hrecv, first, ?_, hlast⟩
      rw [hblocks, cons_append]

/-- The firmware pops a block. -/
theorem pop (h : HostSide window popped (block :: blocks) sq) :
    HostSide window (popped + 1) blocks sq := by
  refine ⟨h.sent, h.receiveWindow, ?_, .inl ?_, h.lastAckSeq.trans (Nat.le_succ _),
    h.lastAckBytes⟩
  · rw [h.count, length_cons]
    omega
  · rcases h.acked with ⟨hle, hblocks⟩ | ⟨hrecv, first, hblocks, -⟩
    · refine ⟨hle.trans (Nat.le_succ _), ?_⟩
      rw [Nat.succ_sub hle, ← tail_drop, ← hblocks]
      rfl
    · refine ⟨le_of_eq hrecv, ?_⟩
      rw [hrecv, Nat.sub_self, drop_zero]
      exact (List.cons.inj hblocks).2

/-- **THE HOST HEARS** the number `n`: a data message may count a block that is not
    popped, an ack does not. -/
theorem hear (h : HostSide window popped blocks sq)
    (hlow : sq.receiveSeq ≤ n) (hnext : n ≤ popped + 1) (hsent : n ≤ sq.sendSeq)
    (hack : payload = [] → n ≤ popped) :
    (handleMessage sq (addFrame (seqByte n) payload)).receiveSeq = n ∧
      HostSide window popped blocks (handleMessage sq (addFrame (seqByte n) payload)) := by
  have hwf : sq.sendSeq = sq.receiveSeq + sq.sentQueue.length := h.sent.wellFormed
  have hroom : sq.sentQueue.length ≤ 12 := h.sent.room
  have hcount := h.count
  have hrseq := rseqOf_addFrame payload hlow (by omega)
  have hle : rseqOf sq (addFrame (seqByte n) payload) ≤ sq.sendSeq := by omega
  have hheard := handleMessage_heard hle
  have hcore := handleMessage_core hwf hle
  obtain ⟨hs, -⟩ := handleMessage_sent h.sent (addFrame (seqByte n) payload)
  generalize handleMessage sq (addFrame (seqByte n) payload) = sq' at hheard hcore hs ⊢
  rw [hrseq] at hcore
  obtain ⟨hsend', hrecv', hsent', -⟩ := Core.mk.inj hcore
  have hseq : sq'.lastAckSeq ≤ popped := by
    rcases hheard.lastAckSeq with heq | ⟨hmin, heq⟩
    · rw [heq]
      exact h.lastAckSeq
    · rw [addFrame_length] at hmin
      have hnil : payload.length = 0 := by
        have hfive : payload.length + 5 = 5 := hmin
        omega
      rw [heq, hrseq]
      exact hack (length_eq_zero_iff.mp hnil)
  have hnonneg : 0 ≤ sq'.lastAckBytes := by
    by_cases hsame : n = sq.receiveSeq
    · rw [hheard.same (hrseq.trans hsame)]
      exact h.lastAckBytes
    · have hget := getElem?_eq_getElem (show n - sq.receiveSeq - 1 < sq.sentQueue.length by omega)
      rw [hheard.lastAckBytes _ _ (by omega) hget]
      exact Int.natCast_nonneg _
  refine ⟨hrecv', hs, hheard.window.trans h.receiveWindow, hsend'.trans hcount, ?_, hseq, hnonneg⟩
  rcases h.acked with ⟨hle', hblocks⟩ | ⟨hrecv, block, hblocks, hlast⟩
  · by_cases hn : n ≤ popped
    · refine .inl ⟨hrecv'.symm ▸ hn, ?_⟩
      rw [hrecv', hsent', drop_drop, hblocks]
      congr 1
      omega
    · -- a data message from the handler of the first block
      obtain rfl : n = popped + 1 := by omega
      cases blocks with
      | nil =>
        rw [length_nil] at hcount
        omega
      | cons block rest =>
        have hget : sq.sentQueue[popped - sq.receiveSeq]? = some block := by
          rw [← head?_drop, ← hblocks]
          rfl
        have hrest : sq'.sentQueue = rest := by
          rw [hsent', Nat.succ_sub hle', ← tail_drop, ← hblocks]
          rfl
        refine .inr ⟨hrecv', block, by rw [hrest], ?_⟩
        exact hheard.lastAckBytes _ block (by omega) hget
  · -- nothing new: the first block was heard of before
    obtain rfl : n = sq.receiveSeq := by omega
    rw [Nat.sub_self, drop_zero] at hsent'
    refine .inr ⟨hrecv'.trans hrecv, block, ?_, (hheard.same hrseq).trans hlast⟩
    rw [hblocks]
    exact congrArg _ hsent'.symm

end HostSide

/-! ## The firmware's side -/

theorem commandFindBlock_short {st : FindState}
    (hsync : st.needSync = false) (h : buf.length < messageMin) :
    commandFindBlock st buf = ⟨0, 0, false, st⟩ := by
  rw [commandFindBlock, if_neg (by rw [hsync]; simp), if_pos h]

/-- The start of a frame is no block yet. -/
theorem scanBlock_partial {seq : UInt8} (hseq : seq &&& ~~~messageSeqMask = messageDest)
    (hlen : payload.length ≤ messagePayloadMax) (hmin : messageMin ≤ buf.length)
    (hshort : buf.length < payload.length + 5) (hbuf : buf ++ rest = addFrame seq payload) :
    scanBlock buf = .needMoreData := by
  by_contra hfull
  have hframe := scanBlock_addFrame seq payload [] hseq hlen
  rw [append_nil, ← hbuf, scanBlock_append rest hmin rfl hfull] at hframe
  have hle := (scanBlock_block hframe).2.1
  omega

/-- **LOOKING FOR A BLOCK** among the bytes: nothing yet, or the first block, taken when its
    number is expected. -/
theorem commandFindBlock_frames {st : FindState}
    {wire : List UInt8} (hsync : st.needSync = false) (hframes : Frames n blocks)
    (hbytes : buf ++ wire = blocks.flatten) :
    commandFindBlock st buf = ⟨0, 0, false, st⟩ ∨
      ∃ block rest, blocks = block :: rest ∧ block.length ≤ buf.length ∧
        commandFindBlock st buf =
          if seqByte n ≠ st.nextSequence then
            ⟨-1, block.length, true, { st with needValid := false }⟩
          else ⟨1, block.length, false,
            { st with needValid := false, nextSequence := seqByte (n + 1) }⟩ := by
  by_cases hmin : buf.length < messageMin
  · exact .inl (commandFindBlock_short hsync hmin)
  have hfive : 5 ≤ buf.length := not_lt.mp hmin
  cases blocks with
  | nil =>
    obtain ⟨rfl, -⟩ := append_eq_nil_iff.mp hbytes
    exact absurd hfive (by decide)
  | cons block rest =>
    obtain ⟨⟨payload, hlen, rfl⟩, -⟩ := hframes
    have hlength := addFrame_length (seqByte n) payload
    rw [flatten_cons] at hbytes
    by_cases hshort : buf.length < payload.length + 5
    · -- the block has not arrived in full
      left
      have hpre : buf <+: addFrame (seqByte n) payload :=
        prefix_of_prefix_length_le ⟨wire, hbytes⟩ (prefix_append _ _) (by omega)
      obtain ⟨more, hmore⟩ := hpre
      rw [commandFindBlock, if_neg (by rw [hsync]; simp), if_neg hmin,
        scanBlock_partial (seqByte_dest n) hlen hfive hshort hmore]
    · right
      have hpre : addFrame (seqByte n) payload <+: buf :=
        prefix_of_prefix_length_le (prefix_append _ rest.flatten) ⟨wire, hbytes⟩ (by omega)
      obtain ⟨more, rfl⟩ := hpre
      refine ⟨_, rest, rfl, by rw [hlength]; omega, ?_⟩
      rw [commandFindBlock_addFrame st _ payload more (seqByte_dest n) hlen hsync,
        seqByte_succ, hlength]

/-- The firmware while the blocks below `popped` are popped, those below `next` are
    accepted and `blocks` are left. -/
structure McuSide (popped next : ℕ) (blocks : List (List UInt8)) (s : State) : Prop where
  synced : s.find.needSync = false
  sequence : s.find.nextSequence = seqByte next
  popped_le : popped ≤ next
  next_le : next ≤ popped + 1
  next_sent : next ≤ popped + blocks.length
  dispatching : ∀ popCount, s.task = .dispatching popCount → next = popped + 1 ∧
    popCount ≤ s.receiveBuf.length ∧
    ∃ block rest, blocks = block :: rest ∧ block.length = popCount
  done : s.task = .popped → next = popped
  accepted : ∀ popCount, s.task ≠ .refused popCount

/-- Both sides and the line between them. -/
structure Tracks (window : ℤ) (popped next : ℕ) (blocks : List (List UInt8)) (s : State) :
    Prop where
  host : HostSide window popped blocks s.sq
  mcu : McuSide popped next blocks s
  frames : Frames popped blocks
  bytes : s.receiveBuf ++ s.wire = blocks.flatten
  carries : Carries popped next s.sq.receiveSeq s.toHost
  bounded : (s.unpopped : ℤ) ≤ window

/-- What holds in every run. -/
def Inv (window : ℤ) (s : State) : Prop := ∃ popped next blocks, Tracks window popped next blocks s

section Fits

variable {window : ℤ} {popped next : ℕ}

theorem Tracks.fits (h : Tracks window popped next blocks s) :
    (blocks.flatten.length : ℤ) ≤ window := by
  rw [← h.bytes, length_append]
  exact h.bounded

/-- The bytes that are not popped are those of the blocks. -/
theorem Tracks.of_fits (hfits : (blocks.flatten.length : ℤ) ≤ window)
    (hhost : HostSide window popped blocks s.sq) (hmcu : McuSide popped next blocks s)
    (hframes : Frames popped blocks) (hbytes : s.receiveBuf ++ s.wire = blocks.flatten)
    (hcarries : Carries popped next s.sq.receiveSeq s.toHost) :
    Tracks window popped next blocks s := by
  refine ⟨hhost, hmcu, hframes, hbytes, hcarries, ?_⟩
  rwa [State.unpopped, ← length_append, hbytes]

end Fits

theorem InSync.inv (h : InSync s) (hwindow : 128 ≤ s.sq.receiveWindow) :
    Inv s.sq.receiveWindow s := by
  have hwf : s.sq.sendSeq = s.sq.receiveSeq + s.sq.sentQueue.length := h.sent.wellFormed
  rw [h.acked] at hwf
  refine ⟨s.sq.receiveSeq, s.sq.receiveSeq, [],
    .of_fits (le_trans (by decide) hwindow) ?_ ?_ trivial ?_ ?_⟩
  · refine ⟨h.sent, rfl, hwf, .inl ⟨le_refl _, ?_⟩, h.lastAckSeq, h.lastAckBytes⟩
    rw [h.acked, drop_nil]
  · refine ⟨h.synced, h.sequence, le_refl _, Nat.le_succ _, le_refl _, ?_, ?_, ?_⟩
    · intro popCount htask
      exact nomatch h.task.symm.trans htask
    · intro htask
      exact nomatch h.task.symm.trans htask
    · intro popCount htask
      exact nomatch h.task.symm.trans htask
  · rw [h.receiveBuf, h.wire]
    rfl
  · rw [h.toHost]
    exact le_refl _

/-! ## Every run -/

section Step

variable {window : ℤ} {popped next : ℕ} {blocks : List (List UInt8)} {s : State}

/-- A task that is idle asks for nothing more. -/
theorem McuSide.idle (h : McuSide popped next blocks s)
    (hfind : s'.find = s.find) (htask : s'.task = .idle) : McuSide popped next blocks s' := by
  refine ⟨hfind ▸ h.synced, hfind ▸ h.sequence, h.popped_le, h.next_le, h.next_sent, ?_, ?_, ?_⟩
  · exact fun popCount hbusy => nomatch htask.symm.trans hbusy
  · exact fun hdone => nomatch htask.symm.trans hdone
  · exact fun popCount hrefused => nomatch htask.symm.trans hrefused

variable (h : Tracks window popped next blocks s)
include h

/-- The host works on its queues only. -/
theorem Tracks.of_acks (hacks : sq'.acks = s.sq.acks) :
    Tracks window popped next blocks { s with sq := sq' } := by
  have hrecv : sq'.receiveSeq = s.sq.receiveSeq := congrArg (fun a => a.core.receiveSeq) hacks
  refine { h with host := h.host.of_acks hacks, mcu := { h.mcu with }, carries := ?_ }
  show Carries popped next sq'.receiveSeq s.toHost
  rw [hrecv]
  exact h.carries

theorem Tracks.build (hwindow : 128 ≤ window) {c : Clocks}
    (hround : commandRound c s.sq = some (sq', some block)) :
    Tracks window popped next (blocks ++ [block])
      { s with sq := sq', wire := s.wire ++ block } := by
  obtain ⟨hfull, sq₁, hacks, rfl, payload, hlen, hblock⟩ := commandRound_stores hround
  have hmax := addFrame_length_le (seqByte s.sq.sendSeq) hlen
  rw [← hblock] at hmax
  have hroom := h.host.room h.frames hwindow hfull
  have hsent := h.mcu.next_sent
  refine .of_fits ?_ (h.host.store hfull hacks hmax)
    { h.mcu with next_sent := ?_, dispatching := ?_ } ?_ ?_ ?_
  · have hsixty : (messageMax : ℤ) = 64 := rfl
    rw [flatten_append, flatten_singleton, length_append]
    push_cast
    omega
  · rw [length_append]
    omega
  · intro popCount htask
    obtain ⟨heq, hcount, first, rest, hblocks, hfirst⟩ := h.mcu.dispatching popCount htask
    refine ⟨heq, hcount, first, rest ++ [block], ?_, hfirst⟩
    rw [hblocks, cons_append]
  · rw [hblock, h.host.count]
    exact h.frames.snoc hlen
  · show s.receiveBuf ++ (s.wire ++ block) = (blocks ++ [block]).flatten
    rw [← append_assoc, h.bytes, flatten_append, flatten_singleton]
  · exact (h.of_acks hacks).carries

theorem Tracks.hostReceive {rest : List (List UInt8)} (htoHost : s.toHost = block :: rest) :
    Tracks window popped next blocks { s with sq := hostInput s.sq block, toHost := rest } := by
  have hcarries := h.carries
  rw [htoHost] at hcarries
  obtain ⟨n, payload, hlow, hlen, rfl, hack, hrest⟩ := hcarries
  have hnext := h.mcu.next_le
  have hsent := h.mcu.next_sent
  have hn := hrest.le
  have hcount := h.host.count
  have hinput : hostInput s.sq (addFrame (seqByte n) payload) =
      handleMessage s.sq (addFrame (seqByte n) payload) := by
    have hcheck := msgblockCheck_addFrame (seqByte n) payload [] (seqByte_dest n) hlen
    rw [append_nil] at hcheck
    rw [hostInput, hcheck]
    exact if_pos (show ((payload.length + 5 : ℕ) : ℤ) > 0 by omega)
  obtain ⟨hrecv, hhost⟩ := h.host.hear hlow (by omega) (by omega) hack
  refine { h with host := ?_, mcu := { h.mcu with }, carries := ?_ }
  · show HostSide window popped blocks (hostInput s.sq (addFrame (seqByte n) payload))
    rw [hinput]
    exact hhost
  · show Carries popped next (hostInput s.sq (addFrame (seqByte n) payload)).receiveSeq rest
    rw [hinput, hrecv]
    exact hrest

/-- A byte goes from the wire to the buffer. -/
theorem Tracks.rxByte {data : UInt8} (hwire : s.wire = data :: rest)
    (hspace : s.receiveBuf.length < rxBufferSize) (intact : Bool) :
    Tracks window popped next blocks { s with
      wire := rest, receiveBuf := serialRxByte s.receiveBuf data, intact := intact } := by
  have hstore : serialRxByte s.receiveBuf data = s.receiveBuf ++ [data] :=
    if_neg (not_le.mpr hspace)
  rw [hstore]
  refine .of_fits h.fits h.host { h.mcu with dispatching := ?_ } h.frames ?_ h.carries
  · intro popCount htask
    obtain ⟨heq, hcount, hfirst⟩ := h.mcu.dispatching popCount htask
    refine ⟨heq, hcount.trans ?_, hfirst⟩
    show s.receiveBuf.length ≤ (s.receiveBuf ++ [data]).length
    rw [length_append]
    omega
  · show s.receiveBuf ++ [data] ++ rest = blocks.flatten
    rw [append_assoc, singleton_append, ← hwire, h.bytes]

/-- The task finds nothing or the block that is expected. -/
theorem Tracks.find (hret : 0 ≤ (commandFindBlock s.find s.receiveBuf).ret) (intact : Bool) :
    Inv window { s with
      find := (commandFindBlock s.find s.receiveBuf).state
      task := Task.found (commandFindBlock s.find s.receiveBuf)
      toHost := s.toHost ++ if (commandFindBlock s.find s.receiveBuf).nak then
        [addFrame (commandFindBlock s.find s.receiveBuf).state.nextSequence []]
        else []
      intact := intact } := by
  obtain ⟨hsynced, hsequence, hle, hnext, hsent, -, -, -⟩ := h.mcu
  rcases commandFindBlock_frames hsynced h.frames h.bytes with
    hnone | ⟨block, rest, hblocks, hlen, hfound⟩
  · rw [hnone]
    refine ⟨popped, next, blocks, { h with mcu := h.mcu.idle rfl rfl, carries := ?_ }⟩
    show Carries popped next s.sq.receiveSeq (s.toHost ++ [])
    rw [append_nil]
    exact h.carries
  · by_cases hseq : seqByte popped ≠ s.find.nextSequence
    · rw [hfound, if_pos hseq] at hret
      exact absurd (show (0 : ℤ) ≤ -1 from hret) (by decide)
    · rw [if_neg hseq] at hfound
      have hexpected : popped = next := by
        refine eq_of_seqByte_eq ?_ hle (by omega)
        rw [← hsequence]
        exact not_ne_iff.mp hseq
      subst hexpected
      rw [hfound]
      refine ⟨popped, popped + 1, blocks, h.host, ⟨hsynced, rfl, Nat.le_succ _, le_refl _, ?_,
        ?_, ?_, ?_⟩, h.frames, h.bytes, ?_, h.bounded⟩
      · rw [hblocks, length_cons]
        omega
      · intro popCount htask
        obtain rfl : block.length = popCount := Task.dispatching.inj htask
        exact ⟨rfl, hlen, block, rest, hblocks, rfl⟩
      · exact nofun
      · exact nofun
      · show Carries popped (popped + 1) s.sq.receiveSeq (s.toHost ++ [])
        rw [append_nil]
        exact h.carries.mono (le_refl _) (Nat.le_succ _)

/-- A message is sent with the number that is expected next. -/
theorem Tracks.sendf
    (hlen : payload.length ≤ messagePayloadMax) (hack : payload = [] → next ≤ popped) :
    Tracks window popped next blocks
      { s with toHost := s.toHost ++ [addFrame s.find.nextSequence payload] } := by
  refine { h with mcu := { h.mcu with }, carries := ?_ }
  show Carries popped next s.sq.receiveSeq (s.toHost ++ [addFrame s.find.nextSequence payload])
  rw [h.mcu.sequence]
  exact h.carries.snoc hlen hack

/-- The task ends, or is left by the long jump. -/
theorem Tracks.idle : Tracks window popped next blocks { s with task := .idle } :=
  { h with mcu := h.mcu.idle rfl rfl }

/-- The block that was dispatched leaves the buffer. -/
theorem Tracks.pop {popCount : ℕ} (htask : s.task = .dispatching popCount) :
    Inv window { s with
      receiveBuf := consolePopInput s.receiveBuf popCount, task := .popped } := by
  obtain ⟨hsynced, hsequence, -, -, hsent, hdispatching, -, -⟩ := h.mcu
  obtain ⟨rfl, hcount, block, rest, rfl, rfl⟩ := hdispatching popCount htask
  have hbytes := h.bytes
  rw [flatten_cons] at hbytes
  have hdrop : s.receiveBuf.drop block.length ++ s.wire = rest.flatten := by
    rw [← drop_append_of_le_length hcount, hbytes, drop_left]
  have hfits := h.fits
  rw [flatten_cons, length_append] at hfits
  rw [length_cons] at hsent
  refine ⟨popped + 1, popped + 1, rest, .of_fits (by omega) h.host.pop ⟨hsynced, hsequence,
    le_refl _, Nat.le_succ _, by omega, ?_, fun _ => rfl, ?_⟩ h.frames.2 hdrop
    (h.carries.mono (Nat.le_succ _) (le_refl _))⟩
  · exact nofun
  · exact nofun

end Step

/-- What was lost stays lost. -/
theorem Step.intact (h : Step s s') (hintact : s'.intact = true) : s.intact = true := by
  cases h with
  | retransmit | disturb => exact nomatch hintact
  | rxByte data rest hwire | find htask => exact (Bool.and_eq_true_iff.mp hintact).1
  | _ => exact hintact

/-- **EVERY STEP** that loses nothing keeps the invariant. -/
theorem Inv.step {window : ℤ} (hwindow : 128 ≤ window)
    (hinv : Inv window s) (h : Step s s') (hintact : s'.intact = true) : Inv window s' := by
  obtain ⟨popped, next, blocks, ht⟩ := hinv
  cases h with
  | sendBatch cq msgs =>
    exact ⟨popped, next, blocks, ht.of_acks (serialqueueSendBatch_acks s.sq cq msgs)⟩
  | wait c sq' hround => exact ⟨popped, next, blocks, ht.of_acks (commandRound_idle hround)⟩
  | build c sq' block hround => exact ⟨popped, next, blocks ++ [block], ht.build hwindow hround⟩
  | retransmit | disturb => exact nomatch hintact
  | hostReceive block rest htoHost => exact ⟨popped, next, blocks, ht.hostReceive htoHost⟩
  | loseToHost toHost hsub =>
    exact ⟨popped, next, blocks,
      { ht with mcu := { ht.mcu with }, carries := ht.carries.sublist hsub }⟩
  | rxByte data rest hwire =>
    have hspace := of_decide_eq_true (Bool.and_eq_true_iff.mp hintact).2
    exact ⟨popped, next, blocks, ht.rxByte hwire hspace _⟩
  | find htask => exact ht.find (of_decide_eq_true (Bool.and_eq_true_iff.mp hintact).2) _
  | sendData payload hne hlen =>
    exact ⟨popped, next, blocks, ht.sendf hlen fun hnil => absurd hnil hne⟩
  | pop popCount htask => exact ht.pop htask
  | discard popCount htask => exact absurd htask (ht.mcu.accepted popCount)
  | ack space htask =>
    have hdone := ht.mcu.done htask
    cases space with
    | true =>
      have hempty : ([] : List UInt8).length ≤ messagePayloadMax := Nat.zero_le _
      have hsent := ht.sendf hempty fun _ => le_of_eq hdone
      exact ⟨popped, next, blocks, hsent.idle⟩
    | false =>
      rw [if_neg Bool.false_ne_true, append_nil]
      exact ⟨popped, next, blocks, ht.idle⟩
  | shutdown => exact ⟨popped, next, blocks, ht.idle⟩

open Relation in
theorem InSync.run_inv {s₀ : State} (hsync : InSync s₀)
    (hwindow : 128 ≤ s₀.sq.receiveWindow) (hrun : ReflTransGen Step s₀ s)
    (hintact : s.intact = true) : Inv s₀.sq.receiveWindow s := by
  induction hrun with
  | refl => exact hsync.inv hwindow
  | tail _ hstep ih => exact (ih (hstep.intact hintact)).step hwindow hstep hintact

open Relation in
/-- **THE RECEIVE WINDOW IS RESPECTED**: in every run without loss or retransmission, the bytes
    sent and not yet popped fit into `receive_window`, which stays what it was. -/
theorem receive_window_respected {s₀ s : State} (hsync : InSync s₀)
    (hwindow : 128 ≤ s₀.sq.receiveWindow) (hrun : ReflTransGen Step s₀ s)
    (hintact : s.intact = true) :
    (s.unpopped : ℤ) ≤ s.sq.receiveWindow ∧ s.sq.receiveWindow = s₀.sq.receiveWindow := by
  obtain ⟨popped, next, blocks, ht⟩ := hsync.run_inv hwindow hrun hintact
  have hsame := ht.host.receiveWindow
  refine ⟨?_, hsame⟩
  rw [hsame]
  exact ht.bounded

/-- A state in sync at number `5`, with the window of this firmware. -/
def sampleState : State where
  sq := { sendSeq := 5, receiveSeq := 5, receiveWindow := 192 }
  find := { nextSequence := 0x15 }

theorem sampleState_inSync : InSync sampleState :=
  ⟨⟨rfl, rfl, by decide, rfl, by decide⟩, rfl, by decide, by decide, rfl, by decide, rfl, rfl,
    rfl, rfl⟩

/-- The queue after a block is sent. -/
def sampleSent : Serialqueue where
  receiveWindow := 192
  sendSeq := 6
  receiveSeq := 5
  sentQueue := [addFrame 0x15 [1]]
  needAckBytes := 6
  needKickClock := 0
  retransmitTimer := .pending

open Relation in
/-- A block is sent, and its bytes arrive. -/
theorem sampleState_received : ReflTransGen Step sampleState
    { sampleState with sq := sampleSent, receiveBuf := addFrame 0x15 [1] } := by
  have hround : commandRound ⟨0, 0, false, 0⟩
      (serialqueueSendBatch sampleState.sq 0 [{ msg := [1] }]) =
        some (sampleSent, some (addFrame 0x15 [1])) := by decide +kernel
  have hsent := (ReflTransGen.single (Step.sendBatch sampleState 0 [{ msg := [1] }])).tail
    (Step.build _ ⟨0, 0, false, 0⟩ _ _ hround)
  exact (((((hsent.tail (Step.rxByte _ _ _ rfl)).tail (Step.rxByte _ _ _ rfl)).tail
    (Step.rxByte _ _ _ rfl)).tail (Step.rxByte _ _ _ rfl)).tail
    (Step.rxByte _ _ _ rfl)).tail (Step.rxByte _ _ _ rfl)

open Relation in
/-- A data message acknowledges a block that stays in the buffer. -/
theorem receive_window_respected_early_ack : ∃ s, ReflTransGen Step sampleState s ∧
    s.sq.sentQueue = [] ∧ s.unpopped = 6 ∧ (s.unpopped : ℤ) ≤ s.sq.receiveWindow ∧
    s.sq.receiveWindow = 192 := by
  have hrun := ((sampleState_received.tail (Step.find _ rfl)).tail
    (Step.sendData _ [0x4d] (by decide) (by decide))).tail (Step.hostReceive _ _ [] rfl)
  obtain ⟨hle, hwindow⟩ :=
    receive_window_respected sampleState_inSync (by decide) hrun (by decide +kernel)
  exact ⟨_, hrun, by decide +kernel, by decide +kernel, hle, hwindow⟩

open Relation in
/-- With the window this firmware announces, its buffer never overflows. -/
theorem rxByte_fits {s₀ : State} (hsync : InSync s₀)
    (hwindow : s₀.sq.receiveWindow = rxBufferSize) (hrun : ReflTransGen Step s₀ s)
    (hintact : s.intact = true) {data : UInt8} (hwire : s.wire = data :: rest) :
    serialRxByte s.receiveBuf data = s.receiveBuf ++ [data] := by
  have hsize : (rxBufferSize : ℤ) = 192 := rfl
  obtain ⟨popped, next, blocks, ht⟩ := hsync.run_inv (by omega) hrun hintact
  have hbounded := ht.bounded
  rw [State.unpopped, hwire, length_cons, hwindow] at hbounded
  have hspace : s.receiveBuf.length < rxBufferSize := by omega
  exact if_neg (not_le.mpr hspace)

open Relation in
/-- The first byte of a second block arrives while the first is in the buffer. -/
theorem rxByte_fits_second : ∃ s, ReflTransGen Step sampleState s ∧
    s.receiveBuf = addFrame 0x15 [1] ∧ s.wire = addFrame 0x16 [2, 3] ∧
    serialRxByte s.receiveBuf 7 = s.receiveBuf ++ [7] := by
  have hrun := (sampleState_received.tail (Step.sendBatch _ 0 [{ msg := [2, 3] }])).tail
    (Step.build _ ⟨0, 0, false, 0⟩ _ _ rfl)
  exact ⟨_, hrun, rfl, by decide +kernel, rxByte_fits sampleState_inSync rfl hrun rfl rfl⟩

end ReceiveWindow
