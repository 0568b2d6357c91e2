import Pick.SerialqueueProofs
import Pick.WindowProofs

/-! # The serial link: host queue, channels and firmware

The host (`klippy/chelper/serialqueue.c`) and the firmware's block parser
(`src/command.c`) joined by two FIFO channels.  A channel carries blocks,
each intact or corrupted; a corrupted block fails the CRC test, and either
end skips it.  Any blocks may be lost or corrupted at any point.  The
firmware may answer at any time: every ack, nak and data message carries
its `next_sequence`.

The link is an instance of the sliding window of `WindowProofs` with modulus `16`
and window `12` (`abs`, `step_simulates`). -/

namespace Link

open List Msgblock Serialqueue

/-! ## Steps of the link -/

/-- A block on a channel. -/
inductive Packet where
  | intact (block : List UInt8)
  | corrupted
  deriving DecidableEq, Repr

/-- The firmware's end: the parser state and the blocks handed to `command_dispatch` so far. -/
structure Mcu where
  find : FindState := {}
  dispatched : List (List UInt8) := []
  deriving DecidableEq, Repr

/-- The link; `built` lists the blocks the host has built. -/
structure LinkState where
  sq : Serialqueue
  mcu : Mcu
  toMcu : List Packet := []
  toHost : List Packet := []
  built : List (List UInt8) := []
  deriving DecidableEq, Repr

/-- The message `command_sendf(&encode_acknak)` sends. -/
def acknak (find : FindState) : Packet := .intact (addFrame find.nextSequence [])

/-- `input_event` on a block. -/
def hostInput (sq : Serialqueue) (block : List UInt8) : Serialqueue :=
  if (msgblockCheck false block).2 > 0 then handleMessage sq block else sq

/-- `command_find_block` on a block, with the dispatch of an accepted one. -/
def mcuInput (mcu : Mcu) (block : List UInt8) : Mcu :=
  let r := commandFindBlock mcu.find block
  { find := r.state
    dispatched := if r.ret > 0 then mcu.dispatched ++ [block] else mcu.dispatched }

/-- The nak sent by `command_find_block`, if any. -/
def mcuReply (mcu : Mcu) (block : List UInt8) : List Packet :=
  let r := commandFindBlock mcu.find block
  if r.nak then [acknak r.state] else []

/-- One step of the host, the firmware or a channel. -/
inductive Step : LinkState → LinkState → Prop
  /-- Messages are queued. -/
  | sendBatch (l : LinkState) (cq : Nat) (msgs : List QueueMessage) :
      Step l { l with sq := serialqueueSendBatch l.sq cq msgs }
  /-- `command_event` finds nothing to send yet. -/
  | idle (l : LinkState) (c : Clocks) (sq' : Serialqueue)
      (h : commandRound c l.sq = some (sq', none)) : Step l { l with sq := sq' }
  /-- `command_event` builds and writes a block. -/
  | build (l : LinkState) (c : Clocks) (sq' : Serialqueue)
      (block : List UInt8) (h : commandRound c l.sq = some (sq', some block)) :
      Step l { l with
        sq := sq'
        toMcu := l.toMcu ++ [.intact block]
        built := l.built ++ [block] }
  /-- `retransmit_event`, after a timeout or a nak. -/
  | retransmit (l : LinkState) (h : l.sq.retransmitTimer ≠ .never) :
      Step l { l with
        sq := (retransmitEvent l.sq).1
        toMcu := l.toMcu ++ (retransmitEvent l.sq).2.map .intact }
  /-- The host reads a block. -/
  | hostReceive (l : LinkState) (block : List UInt8) (ps : List Packet)
      (h : l.toHost = .intact block :: ps) :
      Step l { l with sq := hostInput l.sq block, toHost := ps }
  /-- The firmware reads a block. -/
  | mcuReceive (l : LinkState) (block : List UInt8) (ps : List Packet)
      (h : l.toMcu = .intact block :: ps) :
      Step l { l with
        mcu := mcuInput l.mcu block
        toMcu := ps
        toHost := l.toHost ++ mcuReply l.mcu block }
  /-- A handler shuts the firmware down: the block stays in the receive buffer and is read again. -/
  | mcuAbort (l : LinkState) (block : List UInt8) (ps : List Packet)
      (h : l.toMcu = .intact block :: ps)
      (hret : (commandFindBlock l.mcu.find block).ret > 0) :
      Step l { l with mcu := mcuInput l.mcu block }
  /-- The firmware skips a corrupted block and may send a nak for it. -/
  | mcuSkip (l : LinkState) (ps : List Packet) (nak : Bool) (h : l.toMcu = .corrupted :: ps) :
      Step l { l with
        mcu := { l.mcu with find := { l.mcu.find with needValid := true } }
        toMcu := ps
        toHost := l.toHost ++ if nak then [acknak l.mcu.find] else [] }
  /-- The firmware sends an ack (empty payload) or a data message. -/
  | mcuSend (l : LinkState) (payload : List UInt8) (h : payload.length ≤ messagePayloadMax) :
      Step l { l with
        toHost := l.toHost ++ [.intact (addFrame l.mcu.find.nextSequence payload)] }
  /-- Blocks to the firmware are lost. -/
  | loseToMcu (l : LinkState) (ps : List Packet) (h : ps.Sublist l.toMcu) :
      Step l { l with toMcu := ps }
  /-- Blocks to the host are lost; skipping a corrupted one is the same. -/
  | loseToHost (l : LinkState) (ps : List Packet) (h : ps.Sublist l.toHost) :
      Step l { l with toHost := ps }
  /-- A block to the firmware is corrupted. -/
  | corruptToMcu (l : LinkState) (l₁ l₂ : List Packet) (p : Packet) (h : l.toMcu = l₁ ++ p :: l₂) :
      Step l { l with toMcu := l₁ ++ .corrupted :: l₂ }
  /-- A block to the host is corrupted. -/
  | corruptToHost (l : LinkState) (l₁ l₂ : List Packet) (p : Packet)
      (h : l.toHost = l₁ ++ p :: l₂) :
      Step l { l with toHost := l₁ ++ .corrupted :: l₂ }

/-- Host and firmware agree on the sequence number and nothing is under way. The logs start here. -/
structure InSync (l : LinkState) : Prop where
  serial : l.sq.debugFile = false
  wellFormed : l.sq.WellFormed
  connected : l.sq.receiveSeq ≠ 1
  acked : l.sq.sentQueue = []
  synced : l.mcu.find.needSync = false
  sequence : l.mcu.find.nextSequence = seqByte l.sq.receiveSeq
  toMcu : l.toMcu = []
  toHost : l.toHost = []
  built : l.built = []
  dispatched : l.mcu.dispatched = []

/-! ## Sequence bytes -/

theorem seqByte_mod (n : Nat) : seqByte (n % 16) = seqByte n := by
  rw [seqByte, seqByte, Nat.mod_mod]

theorem forall_seqByte {P : Nat → Prop} (h : ∀ i : Fin 16, P i.val) (n : Nat) : P (n % 16) :=
  h ⟨n % 16, Nat.mod_lt n (by decide)⟩

theorem seqByte_dest (n : Nat) : seqByte n &&& ~~~messageSeqMask = messageDest := by
  rw [← seqByte_mod]
  exact forall_seqByte (P := fun i => seqByte i &&& ~~~messageSeqMask = messageDest) (by decide) n

theorem seqByte_toNat_mod (n : Nat) : (seqByte n).toNat % 16 = n % 16 := by
  rw [← seqByte_mod, ← Nat.mod_mod n 16]
  exact forall_seqByte (P := fun i => (seqByte (i % 16)).toNat % 16 = i % 16) (by decide) n

theorem seqByte_succ (n : Nat) :
    ((seqByte n + 1) &&& messageSeqMask) ||| messageDest = seqByte (n + 1) := by
  have hnext : seqByte (n + 1) = seqByte (n % 16 + 1) := by rw [seqByte, seqByte, Nat.mod_add_mod]
  rw [hnext, ← seqByte_mod n]
  exact forall_seqByte (P := fun i => ((seqByte i + 1) &&& messageSeqMask)
    ||| messageDest = seqByte (i + 1)) (by decide) n

/-! ## The link as a sliding window -/

/-- The four bits of the sequence number a block carries. -/
def blockTag (block : List UInt8) : Nat := (block.getD 1 0).toNat % 16

/-- A packet to the firmware. -/
def absData : Packet → Option (Nat × List UInt8)
  | .intact block => some (blockTag block, block)
  | .corrupted => none

/-- A packet to the host. -/
def absAck : Packet → Option Nat
  | .intact block => some (blockTag block)
  | .corrupted => none

/-- The link seen as a sliding window whose first number is `start`. -/
def abs (start : Nat) (l : LinkState) : Window.State (List UInt8) where
  sent := l.built
  acked := l.sq.receiveSeq - start
  delivered := l.mcu.dispatched
  data := l.toMcu.map absData
  acks := l.toHost.map absAck

/-- A block that both ends accept. -/
def IsFrame (block : List UInt8) : Prop :=
  ∃ seq payload, seq &&& ~~~messageSeqMask = messageDest
    ∧ payload.length ≤ messagePayloadMax ∧ block = addFrame seq payload

theorem blockTag_addFrame (seq : UInt8) (payload : List UInt8) :
    blockTag (addFrame seq payload) = seq.toNat % 16 := rfl

/-- What ties the link to its window: the counters count, the retransmit timer runs, the
    firmware expects the next number, and intact blocks are frames with their numbers. -/
structure Tied (start : Nat) (l : LinkState) : Prop where
  serial : l.sq.debugFile = false
  start_le : start ≤ l.sq.receiveSeq
  sendSeq : l.sq.sendSeq = start + l.built.length
  sentQueue : l.sq.sentQueue = l.built.drop (l.sq.receiveSeq - start)
  armed : l.sq.Armed
  synced : l.mcu.find.needSync = false
  sequence : l.mcu.find.nextSequence = seqByte (start + l.mcu.dispatched.length)
  frames : ∀ i block, l.built[i]? = some block → IsFrame block
    ∧ blockTag block = Window.tag 16 start i
  toMcu : ∀ block, .intact block ∈ l.toMcu → IsFrame block
  toHost : ∀ block, .intact block ∈ l.toHost → IsFrame block

variable {start : Nat} {l : LinkState} {sq' : Serialqueue} {block : List UInt8}
  {ps : List Packet}

/-- A frame the firmware sends carries the number it expects next. -/
theorem blockTag_mcuFrame (ht : Tied start l) (payload : List UInt8) :
    blockTag (addFrame l.mcu.find.nextSequence payload)
      = Window.tag 16 start l.mcu.dispatched.length := by
  rw [blockTag_addFrame, ht.sequence, seqByte_toNat_mod]
  rfl

theorem isFrame_mcuFrame (ht : Tied start l)
    {payload : List UInt8} (h : payload.length ≤ messagePayloadMax) :
    IsFrame (addFrame l.mcu.find.nextSequence payload) :=
  ⟨_, payload, by rw [ht.sequence, seqByte_dest], h, rfl⟩

/-- The blocks of `sent_queue` under their numbers. -/
theorem map_absData_drop {built : List (List UInt8)}
    (hframes : ∀ i block, built[i]? = some block → IsFrame block
      ∧ blockTag block = Window.tag 16 start i) {n : Nat}
    {blocks : List (List UInt8)} (h : built.drop n = blocks) :
    (blocks.map Packet.intact).map absData = Window.numbered 16 start n blocks := by
  induction blocks generalizing n with
  | nil => rfl
  | cons block blocks ih =>
    have hget : built[n]? = some block := by
      rw [← head?_drop, h]
      rfl
    have htail : built.drop (n + 1) = blocks := by
      rw [← tail_drop, h]
      rfl
    rw [map_cons, map_cons, ih htail, Window.numbered, ← (hframes n block hget).2]
    rfl

/-! ### The host's steps -/

/-- A step of the host that leaves the window alone. -/
theorem Tied.of_acks (ht : Tied start l) (h : sq'.acks = l.sq.acks) :
    abs start { l with sq := sq' } = abs start l ∧ Tied start { l with sq := sq' } := by
  have hcore : sq'.core = l.sq.core := congrArg Acks.core h
  obtain ⟨hsend, hrecv, hsent, hdebug⟩ := Core.mk.inj hcore
  constructor
  · rw [abs, abs]
    simp only [hrecv]
  · exact ⟨hdebug.trans ht.serial, hrecv ▸ ht.start_le, hsend.trans ht.sendSeq,
      by rw [hsent, hrecv, ht.sentQueue], ht.armed.of_acks h, ht.synced, ht.sequence,
      ht.frames, ht.toMcu, ht.toHost⟩

/-- What a round of `command_event` that writes a block does. -/
theorem commandRound_build {c : Clocks} {sq : Serialqueue} (hd : sq.debugFile = false)
    (h : commandRound c sq = some (sq', some block)) :
    sq.sendSeq < sq.receiveSeq + maxPendingBlocks
      ∧ sq'.core = { sq.core with
          sendSeq := sq.sendSeq + 1, sentQueue := sq.sentQueue ++ [block] }
      ∧ (sq.Armed → sq'.Armed)
      ∧ ∃ payload, payload.length ≤ messagePayloadMax
        ∧ block = addFrame (seqByte sq.sendSeq) payload := by
  obtain ⟨hroom, sq₁, hacks, rfl, hblock⟩ := commandRound_stores h
  have hcore : sq₁.core = sq.core := congrArg Acks.core hacks
  obtain ⟨hsend, hrecv, hsent, hdebug⟩ := Core.mk.inj hcore
  refine ⟨?_, ?_, fun harmed => (harmed.of_acks hacks).storeBlock block, hblock⟩
  · by_contra hge
    exact hroom (.inl ⟨by omega, hd⟩)
  · show Core.mk (sq₁.sendSeq + 1) sq₁.receiveSeq (sq₁.sentQueue ++ [block]) sq₁.debugFile = _
    rw [hsend, hrecv, hsent, hdebug]
    rfl

/-- `receive_seq` is not ahead of what was built. -/
theorem acked_le_built (hinv : Window.Inv 16 12 start (abs start l)) :
    l.sq.receiveSeq - start ≤ l.built.length :=
  le_trans hinv.acked hinv.delivered.length_le

variable {l₁ l₂ : List Packet} {p : Packet} {l' : LinkState}

/-- Corrupting a block puts no new intact block on a channel. -/
theorem mem_of_mem_corrupt (h : .intact block ∈ l₁ ++ .corrupted :: l₂) :
    .intact block ∈ l₁ ++ p :: l₂ := by
  rcases mem_append.mp h with h | h
  · exact mem_append_left _ h
  · rcases mem_cons.mp h with h | h
    · cases h
    · exact mem_append_right _ (mem_cons_of_mem _ h)

/-- A step of the link that is one of the window. -/
structure Simulates (start : Nat) (l l' : LinkState) : Prop where
  step : Window.Step 16 12 start (abs start l) (abs start l')
  tied : Tied start l'

open Relation in
theorem Simulates.run (h : Simulates start l l') :
    ReflTransGen (Window.Step 16 12 start) (abs start l) (abs start l') ∧ Tied start l' :=
  ⟨.single h.step, h.tied⟩

section Simulates

variable (ht : Tied start l)
include ht

/-- The tie asks only for frames on the channels. -/
theorem Tied.channels {toMcu toHost : List Packet}
    (hmcu : ∀ block, .intact block ∈ toMcu → IsFrame block)
    (hhost : ∀ block, .intact block ∈ toHost → IsFrame block) :
    Tied start { l with toMcu := toMcu, toHost := toHost } :=
  { ht with toMcu := hmcu, toHost := hhost }

theorem build_simulates (hinv : Window.Inv 16 12 start (abs start l)) {c : Clocks}
    (h : commandRound c l.sq = some (sq', some block)) :
    let l' := { l with
      sq := sq'
      toMcu := l.toMcu ++ [.intact block]
      built := l.built ++ [block] }
    Simulates start l l' := by
  intro l'
  obtain ⟨hroom, hcore, harmed, payload, hlen, hblock⟩ := commandRound_build ht.serial h
  obtain ⟨hsend, hrecv, hsent, hdebug⟩ := Core.mk.inj hcore
  have hbound := acked_le_built hinv
  have htag : blockTag block = Window.tag 16 start l.built.length := by
    rw [hblock, blockTag_addFrame, seqByte_toNat_mod, ht.sendSeq]
    rfl
  have hframe : IsFrame block := ⟨_, payload, seqByte_dest l.sq.sendSeq, hlen, hblock⟩
  constructor
  · have hspace : (abs start l).sent.length < (abs start l).acked + 12 := by
      have hcount := ht.sendSeq
      have hstart := ht.start_le
      show l.built.length < l.sq.receiveSeq - start + 12
      simp only [maxPendingBlocks] at hroom
      omega
    have habs : abs start l' = { abs start l with
        sent := l.built ++ [block]
        data := l.toMcu.map absData ++ [some (Window.tag 16 start l.built.length, block)] } := by
      rw [← htag]
      simp only [abs, l', hrecv, map_append, map_singleton, absData]
      rfl
    rw [habs]
    exact Window.Step.send (abs start l) block hspace
  · refine ⟨hdebug.trans ht.serial, hrecv ▸ ht.start_le, ?_, ?_, harmed ht.armed,
      ht.synced, ht.sequence, ?_, ?_, ht.toHost⟩
    · show sq'.sendSeq = start + (l.built ++ [block]).length
      rw [hsend, ht.sendSeq, length_append]
      rfl
    · show sq'.sentQueue = (l.built ++ [block]).drop (sq'.receiveSeq - start)
      rw [hsent, hrecv, ht.sentQueue]
      exact (drop_append_of_le_length hbound).symm
    · intro i b hb
      by_cases hi : i < l.built.length
      · rw [getElem?_append_left hi] at hb
        exact ht.frames i b hb
      · have hlast : (l.built ++ [block])[i]? = some b := hb
        rw [getElem?_append_right (by omega)] at hlast
        obtain ⟨hzero, hb⟩ := List.getElem?_eq_some_iff.mp hlast
        rw [length_singleton] at hzero
        obtain rfl : i = l.built.length := by omega
        obtain rfl : block = b := by simpa using hb
        exact ⟨hframe, htag⟩
    · intro b hb
      rcases mem_append.mp hb with hb | hb
      · exact ht.toMcu b hb
      · obtain rfl := Packet.intact.inj (mem_singleton.mp hb)
        exact hframe

theorem retransmit_simulates :
    let l' := { l with
      sq := (retransmitEvent l.sq).1
      toMcu := l.toMcu ++ (retransmitEvent l.sq).2.map .intact }
    Simulates start l l' := by
  intro l'
  constructor
  · have habs : abs start l' = { abs start l with
        data := l.toMcu.map absData ++ Window.numbered 16 start (l.sq.receiveSeq - start)
          (l.built.drop (l.sq.receiveSeq - start)) } := by
      rw [← map_absData_drop ht.frames rfl, ← ht.sentQueue, ← map_append]
      rfl
    rw [habs]
    exact Window.Step.resend (abs start l)
  · refine { ht with armed := nofun, toMcu := fun b hb => ?_ }
    rcases mem_append.mp hb with hb | hb
    · exact ht.toMcu b hb
    · obtain ⟨b', hmem, heq⟩ := mem_map.mp hb
      obtain rfl := Packet.intact.inj heq
      have hbuilt : b' ∈ l.built := by
        have hsent : b' ∈ l.sq.sentQueue := hmem
        rw [ht.sentQueue] at hsent
        exact mem_of_mem_drop hsent
      obtain ⟨i, hi⟩ := getElem?_of_mem hbuilt
      exact (ht.frames i b' hi).1

/-- Reading a frame of the firmware is learning an acknowledgement. -/
theorem hostReceive_simulates (hinv : Window.Inv 16 12 start (abs start l))
    (h : l.toHost = .intact block :: ps) :
    let l' := { l with sq := hostInput l.sq block, toHost := ps }
    Simulates start l l' := by
  intro l'
  obtain ⟨seq, payload, hseq, hlen, hblock⟩ := ht.toHost block (h ▸ mem_cons_self ..)
  have hcheck := msgblockCheck_addFrame seq payload [] hseq hlen
  rw [append_nil, ← hblock] at hcheck
  have hinput : hostInput l.sq block = handleMessage l.sq block := by
    rw [hostInput, hcheck, if_pos (by show ((payload.length + 5 : Nat) : Int) > 0
                                      omega)]
  have hstart := ht.start_le
  -- the number read is the one whose low bits the block carries
  obtain ⟨k, hk, hrseq, htag⟩ : ∃ k < 16, rseqOf l.sq block = l.sq.receiveSeq + k
      ∧ blockTag block = Window.tag 16 start (l.sq.receiveSeq - start + k) := by
    refine ⟨_, Nat.mod_lt _ (by decide), rfl, ?_⟩
    rw [Window.tag, blockTag]
    omega
  have hacks : (abs start l).acks
      = some (Window.tag 16 start ((abs start l).acked + k)) :: ps.map absAck := by
    show l.toHost.map absAck = some (Window.tag 16 start (l.sq.receiveSeq - start + k)) :: _
    rw [h, ← htag]
    rfl
  have hle : l.sq.receiveSeq - start + k ≤ l.built.length :=
    (hinv.learned (by decide) hk hacks).1.trans hinv.delivered.length_le
  have hbound := acked_le_built hinv
  have hcount := ht.sendSeq
  have hwf : l.sq.sendSeq = l.sq.receiveSeq + l.sq.sentQueue.length := by
    rw [ht.sentQueue, length_drop]
    omega
  have hcore := handleMessage_core hwf (by rw [hrseq]; omega)
  rw [← hinput, hrseq] at hcore
  obtain ⟨hsend, hrecv, hsent, hdebug⟩ := Core.mk.inj hcore
  constructor
  · have habs : abs start l' = { abs start l with
        acked := l.sq.receiveSeq - start + k
        acks := ps.map absAck } := by
      have hacked : (hostInput l.sq block).receiveSeq - start = l.sq.receiveSeq - start + k := by
        rw [hrecv]
        omega
      simp only [abs, l', hacked]
    rw [habs]
    exact Window.Step.learn (abs start l) k _ hk hacks
  · have harmed : (hostInput l.sq block).Armed := hinput ▸ ht.armed.handleMessage block
    refine ⟨hdebug.trans ht.serial, ?_, hsend.trans ht.sendSeq, ?_, harmed, ht.synced,
      ht.sequence, ht.frames, ht.toMcu, ?_⟩
    · show start ≤ (hostInput l.sq block).receiveSeq
      rw [hrecv]
      omega
    · show (hostInput l.sq block).sentQueue
        = l.built.drop ((hostInput l.sq block).receiveSeq - start)
      rw [hsent, hrecv, ht.sentQueue, drop_drop]
      congr 1
      omega
    · exact fun b hb => ht.toHost b (h ▸ mem_cons_of_mem _ hb)

/-! ### The firmware's steps -/

/-- `command_find_block` on a frame, in terms of the numbers. -/
theorem commandFindBlock_frame (hframe : IsFrame block) :
    (blockTag block = Window.tag 16 start l.mcu.dispatched.length
        ∧ mcuReply l.mcu block = []
        ∧ (commandFindBlock l.mcu.find block).ret > 0
        ∧ mcuInput l.mcu block = ⟨⟨false, false,
            seqByte (start + (l.mcu.dispatched ++ [block]).length)⟩,
            l.mcu.dispatched ++ [block]⟩)
      ∨ (¬(commandFindBlock l.mcu.find block).ret > 0
        ∧ mcuReply l.mcu block = [acknak l.mcu.find]
        ∧ mcuInput l.mcu block = { l.mcu with
            find := { l.mcu.find with needValid := false } }) := by
  obtain ⟨seq, payload, hseq, hlen, rfl⟩ := hframe
  have hfind := commandFindBlock_addFrame l.mcu.find seq payload [] hseq hlen ht.synced
  rw [append_nil] at hfind
  by_cases hnext : seq ≠ l.mcu.find.nextSequence
  · rw [if_pos hnext] at hfind
    right
    rw [mcuReply, mcuInput, hfind]
    exact ⟨show ¬(-1 : Int) > 0 by decide, rfl, rfl⟩
  · rw [if_neg hnext] at hfind
    obtain rfl : seq = l.mcu.find.nextSequence := not_ne_iff.mp hnext
    left
    refine ⟨blockTag_mcuFrame ht payload, ?_, ?_, ?_⟩
    · rw [mcuReply, hfind]
      rfl
    · rw [hfind]
      exact Int.one_pos
    · rw [mcuInput, hfind, ht.sequence, seqByte_succ, length_append]
      simp only [ht.synced]
      rfl

/-- The firmware accepts a block: the window accepts the item. -/
theorem accept_simulates (h : l.toMcu = .intact block :: ps)
    (htag : blockTag block = Window.tag 16 start l.mcu.dispatched.length)
    (hmcu : mcuInput l.mcu block = ⟨⟨false, false,
      seqByte (start + (l.mcu.dispatched ++ [block]).length)⟩,
      l.mcu.dispatched ++ [block]⟩) :
    let l' := { l with mcu := mcuInput l.mcu block }
    Simulates start l l' := by
  intro l'
  constructor
  · have habs : abs start l' = { abs start l with
        delivered := l.mcu.dispatched ++ [block] } := by
      simp only [abs, l', hmcu]
    have hdata : (abs start l).data = some (Window.tag 16 start
        (abs start l).delivered.length, block) :: ps.map absData := by
      show l.toMcu.map absData = some (Window.tag 16 start l.mcu.dispatched.length, block) :: _
      rw [h, ← htag]
      rfl
    rw [habs]
    exact Window.Step.accept (abs start l) block _ hdata
  · refine { ht with synced := ?_, sequence := ?_ }
    · show (mcuInput l.mcu block).find.needSync = false
      rw [hmcu]
    · show (mcuInput l.mcu block).find.nextSequence
        = seqByte (start + (mcuInput l.mcu block).dispatched.length)
      rw [hmcu]

/-- The firmware sends a frame: the window acknowledges. -/
theorem mcuSend_simulates {payload : List UInt8} (h : payload.length ≤ messagePayloadMax) :
    let l' := { l with
      toHost := l.toHost ++ [.intact (addFrame l.mcu.find.nextSequence payload)] }
    Simulates start l l' := by
  intro l'
  constructor
  · have habs : abs start l' = { abs start l with
        acks := l.toHost.map absAck ++ [some (Window.tag 16 start l.mcu.dispatched.length)] } := by
      rw [← blockTag_mcuFrame ht payload]
      simp only [abs, l', map_append, map_singleton, absAck]
    rw [habs]
    exact Window.Step.ack (abs start l)
  · refine ht.channels ht.toMcu fun b hb => ?_
    rcases mem_append.mp hb with hb | hb
    · exact ht.toHost b hb
    · obtain rfl := Packet.intact.inj (mem_singleton.mp hb)
      exact isFrame_mcuFrame ht h

/-- The parser's resynchronisation flag is not part of the window. -/
theorem Tied.setNeedValid (v : Bool) : Tied start { l with
      mcu := { l.mcu with find := { l.mcu.find with needValid := v } } } :=
  { ht with }

/-! ### The channels -/

theorem loseToMcu_simulates (h : ps.Sublist l.toMcu) : Simulates start l { l with toMcu := ps } :=
  ⟨Window.Step.loseData (abs start l) _ (h.map absData),
    ht.channels (fun b hb => ht.toMcu b (h.subset hb)) ht.toHost⟩

theorem loseToHost_simulates (h : ps.Sublist l.toHost) :
    Simulates start l { l with toHost := ps } :=
  ⟨Window.Step.loseAcks (abs start l) _ (h.map absAck),
    ht.channels ht.toMcu fun b hb => ht.toHost b (h.subset hb)⟩

theorem corruptToMcu_simulates (h : l.toMcu = l₁ ++ p :: l₂) :
    Simulates start l { l with toMcu := l₁ ++ .corrupted :: l₂ } := by
  constructor
  · have hdata : (abs start l).data = l₁.map absData ++ absData p :: l₂.map absData := by
      show l.toMcu.map absData = _
      rw [h, map_append, map_cons]
    have habs : abs start ({ l with toMcu := l₁ ++ .corrupted :: l₂ })
        = { abs start l with
          data := l₁.map absData ++ none :: l₂.map absData } := by
      simp only [abs, map_append, map_cons, absData]
    rw [habs]
    exact Window.Step.spoilData (abs start l) _ _ _ hdata
  · exact ht.channels (fun b hb => ht.toMcu b (h ▸ mem_of_mem_corrupt hb)) ht.toHost

theorem corruptToHost_simulates (h : l.toHost = l₁ ++ p :: l₂) :
    Simulates start l { l with toHost := l₁ ++ .corrupted :: l₂ } := by
  constructor
  · have hacks : (abs start l).acks = l₁.map absAck ++ absAck p :: l₂.map absAck := by
      show l.toHost.map absAck = _
      rw [h, map_append, map_cons]
    have habs : abs start ({ l with toHost := l₁ ++ .corrupted :: l₂ })
        = { abs start l with
          acks := l₁.map absAck ++ none :: l₂.map absAck } := by
      simp only [abs, map_append, map_cons, absAck]
    rw [habs]
    exact Window.Step.spoilAck (abs start l) _ _ _ hacks
  · exact ht.channels ht.toMcu fun b hb => ht.toHost b (h ▸ mem_of_mem_corrupt hb)

/-! ## Every run -/

open Relation in
/-- **SIMULATION**: each step of the link is a few steps of the window. -/
theorem step_simulates (hinv : Window.Inv 16 12 start (abs start l)) (h : Step l l') :
    ReflTransGen (Window.Step 16 12 start) (abs start l) (abs start l') ∧ Tied start l' := by
  cases h with
  | sendBatch cq msgs =>
    obtain ⟨habs, ht'⟩ := ht.of_acks (serialqueueSendBatch_acks l.sq cq msgs)
    exact ⟨habs ▸ .refl, ht'⟩
  | idle c sq' hround =>
    obtain ⟨habs, ht'⟩ := ht.of_acks (commandRound_idle hround)
    exact ⟨habs ▸ .refl, ht'⟩
  | build c sq' block hround => exact (build_simulates ht hinv hround).run
  | retransmit _ => exact (retransmit_simulates ht).run
  | hostReceive block ps hhead => exact (hostReceive_simulates ht hinv hhead).run
  | mcuReceive block ps hhead =>
    have hframe := ht.toMcu block (hhead ▸ mem_cons_self ..)
    have hsub : ps.Sublist l.toMcu := hhead ▸ sublist_cons_self ..
    rcases commandFindBlock_frame ht hframe with
      ⟨htag, hreply, -, hmcu⟩ | ⟨-, hreply, hmcu⟩
    · -- accepted, then taken off the channel
      obtain ⟨hacc, htacc⟩ := accept_simulates ht hhead htag hmcu
      obtain ⟨hpop, htpop⟩ := loseToMcu_simulates htacc hsub
      rw [hreply, append_nil]
      exact ⟨(ReflTransGen.single hacc).tail hpop, htpop⟩
    · -- a nak, then taken off the channel
      obtain ⟨hack, htack⟩ := mcuSend_simulates ht
        (show ([] : List UInt8).length ≤ messagePayloadMax from Nat.zero_le _)
      obtain ⟨hpop, htpop⟩ := loseToMcu_simulates htack hsub
      rw [hreply, hmcu]
      exact ⟨(ReflTransGen.single hack).tail hpop, htpop.setNeedValid false⟩
  | mcuAbort block ps hhead hret =>
    have hframe := ht.toMcu block (hhead ▸ mem_cons_self ..)
    rcases commandFindBlock_frame ht hframe with
      ⟨htag, -, -, hmcu⟩ | ⟨hnot, -, -⟩
    · exact (accept_simulates ht hhead htag hmcu).run
    · exact absurd hret hnot
  | mcuSkip ps nak hhead =>
    have hsub : ps.Sublist l.toMcu := hhead ▸ sublist_cons_self ..
    cases nak with
    | false =>
      obtain ⟨hpop, htpop⟩ := loseToMcu_simulates ht hsub
      rw [if_neg Bool.false_ne_true, append_nil]
      exact ⟨.single hpop, htpop.setNeedValid true⟩
    | true =>
      obtain ⟨hack, htack⟩ := mcuSend_simulates ht
        (show ([] : List UInt8).length ≤ messagePayloadMax from Nat.zero_le _)
      obtain ⟨hpop, htpop⟩ := loseToMcu_simulates htack hsub
      exact ⟨(ReflTransGen.single hack).tail hpop, htpop.setNeedValid true⟩
  | mcuSend payload hlen => exact (mcuSend_simulates ht hlen).run
  | loseToMcu ps hsub => exact (loseToMcu_simulates ht hsub).run
  | loseToHost ps hsub => exact (loseToHost_simulates ht hsub).run
  | corruptToMcu l₁ l₂ p hsplit => exact (corruptToMcu_simulates ht hsplit).run
  | corruptToHost l₁ l₂ p hsplit => exact (corruptToHost_simulates ht hsplit).run

end Simulates

theorem inSync_tied (h : InSync l) :
    Tied l.sq.receiveSeq l ∧ Window.Inv 16 12 l.sq.receiveSeq (abs l.sq.receiveSeq l) := by
  have hwf := h.wellFormed
  rw [WellFormed, h.acked] at hwf
  constructor
  · refine ⟨h.serial, le_refl _, ?_, ?_, fun hne => absurd h.acked hne, h.synced, ?_, ?_,
      ?_, ?_⟩
    · rw [hwf, h.built]
    · rw [h.acked, h.built, drop_nil]
    · rw [h.sequence, h.dispatched]
      rfl
    · rw [h.built]
      exact nofun
    · rw [h.toMcu]
      exact nofun
    · rw [h.toHost]
      exact nofun
  · have habs : abs l.sq.receiveSeq l = {} := by
      rw [abs, h.built, h.dispatched, h.toMcu, h.toHost, Nat.sub_self]
      rfl
    rw [habs]
    exact Window.inv_init ..

open Relation in
/-- The tie and the invariant hold along every run. -/
theorem run_tied (ht : Tied start l) (hinv : Window.Inv 16 12 start (abs start l))
    (hrun : ReflTransGen Step l l') : Tied start l' ∧ Window.Inv 16 12 start (abs start l') := by
  induction hrun with
  | refl => exact ⟨ht, hinv⟩
  | tail _ hstep ih =>
    obtain ⟨hsim, ht'⟩ := step_simulates ih.1 ih.2 hstep
    exact ⟨ht', ih.2.run (by decide) (by decide) hsim⟩

open Relation in
/-- **RELIABLE IN-ORDER DELIVERY**: in every run from a state in sync, the blocks dispatched are
    a first part of those built, and the number `N` behind `next_sequence` stays between the
    host's counters, at most twelve apart. -/
theorem link_reliable {l₀ l : LinkState} (hsync : InSync l₀) (hrun : ReflTransGen Step l₀ l) :
    let N := l₀.sq.receiveSeq + l.mcu.dispatched.length
    l.mcu.dispatched <+: l.built ∧ l.mcu.find.nextSequence = seqByte N
      ∧ l.sq.receiveSeq ≤ N ∧ N ≤ l.sq.sendSeq
      ∧ l.sq.sendSeq ≤ l.sq.receiveSeq + maxPendingBlocks := by
  intro N
  obtain ⟨ht₀, hinv₀⟩ := inSync_tied hsync
  obtain ⟨ht, hinv⟩ := run_tied ht₀ hinv₀ hrun
  have hstart := ht.start_le
  have hacked : l.sq.receiveSeq - l₀.sq.receiveSeq ≤ l.mcu.dispatched.length := hinv.acked
  have hle : l.mcu.dispatched.length ≤ l.built.length := hinv.delivered.length_le
  have hwindow : l.built.length ≤ l.sq.receiveSeq - l₀.sq.receiveSeq + 12 := hinv.window
  have hsend := ht.sendSeq
  refine ⟨hinv.delivered, ht.sequence, ?_, ?_, ?_⟩
  · omega
  · omega
  · rw [maxPendingBlocks]
    omega

/-- A link in sync at number `5`. -/
def sampleLink : LinkState where
  sq := { sendSeq := 5, receiveSeq := 5 }
  mcu := { find := { nextSequence := 0x15 } }

theorem inSync_sampleLink : InSync sampleLink :=
  ⟨rfl, rfl, by decide, rfl, rfl, by decide, rfl, rfl, rfl, rfl⟩

/-- The link after two blocks were built, of which the first is dispatched and the second
    is lost. -/
def lostBlock : LinkState where
  sq := { sendSeq := 7, receiveSeq := 5, sentQueue := [addFrame 0x15 [1, 2], addFrame 0x16 [3]]
          needAckBytes := 13, needKickClock := 0, retransmitTimer := .pending }
  mcu := { find := { nextSequence := 0x16 }, dispatched := [addFrame 0x15 [1, 2]] }
  built := [addFrame 0x15 [1, 2], addFrame 0x16 [3]]

open Relation in
theorem run_lostBlock : ReflTransGen Step sampleLink lostBlock := by
  let sq : Serialqueue := {
    sendSeq := 6, receiveSeq := 5, sentQueue := [addFrame 0x15 [1, 2]]
    needAckBytes := 7, needKickClock := 0, retransmitTimer := .pending }
  have hround : commandRound ⟨0, 0, false, 0⟩
      (serialqueueSendBatch sampleLink.sq 0 [{ msg := [1, 2] }])
      = some (sq, some (addFrame 0x15 [1, 2])) := by decide +kernel
  have hround' : commandRound ⟨0, 0, false, 0⟩ (serialqueueSendBatch sq 0 [{ msg := [3] }])
      = some (lostBlock.sq, some (addFrame 0x16 [3])) := by decide +kernel
  have hbuilt := (((ReflTransGen.single (Step.sendBatch sampleLink 0 [{ msg := [1, 2] }])).tail
    (Step.build _ ⟨0, 0, false, 0⟩ _ _ hround)).tail (Step.sendBatch _ 0 [{ msg := [3] }])).tail
    (Step.build _ ⟨0, 0, false, 0⟩ _ _ hround')
  have hlost := (hbuilt.tail (Step.mcuReceive _ (addFrame 0x15 [1, 2])
    [.intact (addFrame 0x16 [3])] rfl)).tail (Step.loseToMcu _ [] (nil_sublist _))
  obtain ⟨l, hrun, heq⟩ : ∃ l, ReflTransGen Step sampleLink l ∧ l = lostBlock :=
    ⟨_, hlost, by decide +kernel⟩
  exact heq ▸ hrun

open Relation in
/-- The second block is lost, sent again and dispatched. -/
theorem link_reliable_lost_block : ∃ l, ReflTransGen Step sampleLink l
    ∧ l.mcu.dispatched = [addFrame 0x15 [1, 2], addFrame 0x16 [3]]
    ∧ l.mcu.dispatched <+: l.built
    ∧ l.mcu.find.nextSequence = seqByte (5 + l.mcu.dispatched.length)
    ∧ l.sq.receiveSeq ≤ 5 + l.mcu.dispatched.length
    ∧ 5 + l.mcu.dispatched.length ≤ l.sq.sendSeq
    ∧ l.sq.sendSeq ≤ l.sq.receiveSeq + maxPendingBlocks := by
  have hrun := ((run_lostBlock.tail (Step.retransmit _ (by decide))).tail
    (Step.mcuReceive _ (addFrame 0x15 [1, 2]) [.intact (addFrame 0x16 [3])] rfl)).tail
    (Step.mcuReceive _ (addFrame 0x16 [3]) [] rfl)
  obtain ⟨l, hrun, hdispatched⟩ : ∃ l, ReflTransGen Step sampleLink l
      ∧ l.mcu.dispatched = [addFrame 0x15 [1, 2], addFrame 0x16 [3]] :=
    ⟨_, hrun, by decide +kernel⟩
  exact ⟨l, hrun, hdispatched, link_reliable inSync_sampleLink hrun⟩

open Relation in
/-- **NOTHING IS FORGOTTEN**: in every run from a state in sync, the blocks not dispatched are
    among those that `retransmit_event` writes again, and its timer runs. -/
theorem undispatched_kept {l₀ l : LinkState} (hsync : InSync l₀) (hrun : ReflTransGen Step l₀ l) :
    ∃ rest, l.built = l.mcu.dispatched ++ rest ∧ rest <:+ l.sq.sentQueue
      ∧ rest <:+ (retransmitEvent l.sq).2
      ∧ (l.sq.sentQueue ≠ [] → l.sq.retransmitTimer ≠ .never) := by
  obtain ⟨ht₀, hinv₀⟩ := inSync_tied hsync
  obtain ⟨ht, hinv⟩ := run_tied ht₀ hinv₀ hrun
  have hacked : l.sq.receiveSeq - l₀.sq.receiveSeq ≤ l.mcu.dispatched.length := hinv.acked
  obtain ⟨rest, hbuilt⟩ : l.mcu.dispatched <+: l.built := hinv.delivered
  have hrest : rest <:+ l.sq.sentQueue := by
    rw [ht.sentQueue, ← hbuilt, drop_append_of_le_length hacked]
    exact suffix_append _ _
  exact ⟨rest, hbuilt.symm, hrest, hrest, ht.armed⟩

theorem undispatched_kept_lost_block : lostBlock.sq.sentQueue ≠ [] ∧
    ∃ rest, lostBlock.built = lostBlock.mcu.dispatched ++ rest ∧ rest <:+ lostBlock.sq.sentQueue
      ∧ rest <:+ (retransmitEvent lostBlock.sq).2
      ∧ (lostBlock.sq.sentQueue ≠ [] → lostBlock.sq.retransmitTimer ≠ .never) :=
  ⟨by decide, undispatched_kept inSync_sampleLink run_lostBlock⟩

end Link
