import Pick.WordProofs

/-! # Message blocks

A block on the wire is a length byte, a sequence byte, the payload, a
16-bit CRC and a SYNC byte.  Both ends frame blocks in the same way
(`build_and_send_command` in `serialqueue.c`, `command_add_frame` in
`command.c`) and test them in the same way: `msgblock_check` on the host
and `command_find_block` on the firmware differ in how they resynchronise
and in the sequence test, not in what a valid block is.  Each has its own
text here, and `msgblockCheck_eq` says that the tests are the same. -/

namespace Msgblock

/-- `MESSAGE_MIN`. -/
def messageMin : Nat := 5
/-- `MESSAGE_MAX`. -/
def messageMax : Nat := 64
/-- `MESSAGE_HEADER_SIZE`. -/
def messageHeaderSize : Nat := 2
/-- `MESSAGE_TRAILER_SIZE`. -/
def messageTrailerSize : Nat := 3
/-- `MESSAGE_PAYLOAD_MAX`. -/
def messagePayloadMax : Nat := messageMax - messageMin
/-- `MESSAGE_SEQ_MASK`. -/
def messageSeqMask : UInt8 := 0x0f
/-- `MESSAGE_DEST`. -/
def messageDest : UInt8 := 0x10
/-- `MESSAGE_SYNC`. -/
def messageSync : UInt8 := 0x7e

/-- One round of the `crc16_ccitt` loop.  `data ^= data << 4` is truncated to a byte. -/
def crcStep (crc : UInt16) (b : UInt8) : UInt16 :=
  let data := b ^^^ crc.toUInt8
  let data := data ^^^ (data <<< 4)
  ((data.toUInt16 <<< 8) ||| (crc >>> 8)) ^^^ (data >>> 4).toUInt16 ^^^ (data.toUInt16 <<< 3)

/-- `crc16_ccitt` of the firmware (`src/generic/crc16_ccitt.c`). -/
def crc16Ccitt (buf : List UInt8) : UInt16 := buf.foldl crcStep 0xffff

/-- The bytes under the CRC. -/
def frameBody (seq : UInt8) (payload : List UInt8) : List UInt8 :=
  UInt8.ofNat (messageMin + payload.length) :: seq :: payload

/-- Add header and trailer around a payload. -/
def addFrame (seq : UInt8) (payload : List UInt8) : List UInt8 :=
  let crc := crc16Ccitt (frameBody seq payload)
  frameBody seq payload ++ [(crc >>> 8).toUInt8, crc.toUInt8, messageSync]

/-- The outcome of the tests on the bytes at the front of a buffer. -/
inductive Scan where
  | needMoreData
  | error
  | block (msglen : Nat)
  deriving DecidableEq, Repr

/-- The tests of `command_find_block`, on a buffer of at least `MESSAGE_MIN` bytes. -/
def scanBlock (buf : List UInt8) : Scan :=
  let msglen := (buf.getD 0 0).toNat
  if msglen < messageMin ∨ msglen > messageMax then .error
  else if buf.getD 1 0 &&& ~~~messageSeqMask ≠ messageDest then .error
  else if buf.length < msglen then .needMoreData
  else if buf.getD (msglen - 1) 0 ≠ messageSync then .error
  else
    let msgcrc := ((buf.getD (msglen - 3) 0).toUInt16 <<< 8)
      ||| (buf.getD (msglen - 2) 0).toUInt16
    if crc16Ccitt (buf.take (msglen - messageTrailerSize)) ≠ msgcrc then .error
    else .block msglen

/-- The loop of `msgblock_crc16_ccitt` (`klippy/chelper/msgblock.c`), which counts `len` down. -/
def hostCrcLoop : Nat → List UInt8 → UInt16 → UInt16
  | 0, _, crc => crc
  | _ + 1, [], crc => crc
  | len + 1, data :: buf, crc =>
    let data := data ^^^ crc.toUInt8
    let data := data ^^^ (data <<< 4)
    hostCrcLoop len buf (((data.toUInt16 <<< 8) ||| (crc >>> 8)) ^^^ (data >>> 4).toUInt16
      ^^^ (data.toUInt16 <<< 3))

/-- `msgblock_crc16_ccitt`. -/
def msgblockCrc16Ccitt (buf : List UInt8) (len : UInt8) : UInt16 := hostCrcLoop len.toNat buf 0xffff

/-- Label `error` of `msgblock_check`: discard bytes until the next SYNC. -/
def discardToSync (buf : List UInt8) : Bool × Int :=
  match buf.idxOf? messageSync with
  | some i => (false, -(i + 1 : Nat))
  | none => (true, -(buf.length : Nat))

/-- `msgblock_check` on the host: the new `need_sync` and the return value. -/
def msgblockCheck (needSync : Bool) (buf : List UInt8) : Bool × Int :=
  if buf.length < messageMin then (needSync, 0)
  else if needSync then discardToSync buf
  else
    let msglen := (buf.getD 0 0).toNat
    if msglen < messageMin ∨ msglen > messageMax then discardToSync buf
    else if buf.getD 1 0 &&& ~~~messageSeqMask ≠ messageDest then discardToSync buf
    else if buf.length < msglen then (needSync, 0)
    else if buf.getD (msglen - 1) 0 ≠ messageSync then discardToSync buf
    else
      let msgcrc := ((buf.getD (msglen - 3) 0).toUInt16 <<< 8)
        ||| (buf.getD (msglen - 2) 0).toUInt16
      if msgblockCrc16Ccitt buf (.ofNat (msglen - messageTrailerSize)) ≠ msgcrc then
        discardToSync buf
      else (needSync, (msglen : Nat))

/-- The static state of `command_find_block`, with `next_sequence`. -/
structure FindState where
  needSync : Bool := false
  needValid : Bool := false
  nextSequence : UInt8 := messageDest
  deriving DecidableEq, Repr

/-- What a call of `command_find_block` returns and sends. -/
structure FindResult where
  ret : Int
  popCount : Nat
  nak : Bool
  state : FindState
  deriving DecidableEq, Repr

/-- Label `need_sync` of `command_find_block`. -/
def findSync (st : FindState) (buf : List UInt8) : FindResult :=
  let (st, popCount) :=
    match buf.idxOf? messageSync with
    | some i => ({ st with needSync := false }, i + 1)
    | none => (st, buf.length)
  if st.needValid then ⟨-1, popCount, false, st⟩
  else ⟨-1, popCount, true, { st with needValid := true }⟩

/-- `command_find_block`.  `nak` says whether it called `command_sendf(&encode_acknak)`. -/
def commandFindBlock (st : FindState) (buf : List UInt8) : FindResult :=
  if buf ≠ [] ∧ st.needSync = true then findSync st buf
  else if buf.length < messageMin then ⟨0, 0, false, st⟩
  else
    match scanBlock buf with
    | .needMoreData => ⟨0, 0, false, st⟩
    | .error =>
      if buf.getD 0 0 = messageSync then ⟨-1, 1, false, st⟩
      else findSync { st with needSync := true } buf
    | .block msglen =>
      let msgseq := buf.getD 1 0
      let st := { st with needValid := false }
      if msgseq ≠ st.nextSequence then ⟨-1, msglen, true, st⟩
      else
        ⟨1, msglen, false,
          { st with
            nextSequence := ((msgseq + 1) &&& messageSeqMask) ||| messageDest }⟩

/-! ## The host tests what the firmware does -/

theorem hostCrcLoop_eq (len : Nat) (buf : List UInt8) (crc : UInt16) :
    hostCrcLoop len buf crc = (buf.take len).foldl crcStep crc := by
  induction len generalizing buf crc with
  | zero => rfl
  | succ len ih =>
    cases buf with
    | nil => rfl
    | cons data buf => exact ih buf _

/-- **THE TESTS OF BOTH ENDS** are the same. -/
theorem msgblockCheck_eq (needSync : Bool) (buf : List UInt8) :
    msgblockCheck needSync buf =
      if buf.length < messageMin then (needSync, 0)
      else if needSync then discardToSync buf
      else
        match scanBlock buf with
        | .needMoreData => (needSync, 0)
        | .error => discardToSync buf
        | .block msglen => (needSync, (msglen : Nat)) := by
  have hcrc : msgblockCrc16Ccitt buf (.ofNat ((buf.getD 0 0).toNat - messageTrailerSize)) =
      crc16Ccitt (buf.take ((buf.getD 0 0).toNat - messageTrailerSize)) := by
    have hlt := (buf.getD 0 0).toNat_lt
    rw [msgblockCrc16Ccitt, hostCrcLoop_eq, UInt8.toNat_ofNat', Nat.mod_eq_of_lt (by omega)]
    rfl
  rw [msgblockCheck, scanBlock]
  dsimp only
  rw [hcrc]
  split_ifs <;> rfl

/-! ## A framed payload is a valid block -/

section Frame

variable (st : FindState) (seq : UInt8) (payload rest : List UInt8)

@[simp] theorem frameBody_length : (frameBody seq payload).length = payload.length + 2 := rfl

@[simp] theorem addFrame_length : (addFrame seq payload).length = payload.length + 5 := by
  simp [addFrame]

theorem addFrame_length_le {payload : List UInt8} (hlen : payload.length ≤ messagePayloadMax) :
    (addFrame seq payload).length ≤ messageMax := by
  rw [addFrame_length]
  exact Nat.add_le_add_right hlen 5

theorem addFrame_not_short : ¬ (addFrame seq payload ++ rest).length < messageMin := by
  rw [List.length_append, addFrame_length]
  show ¬ _ < 5
  omega

theorem addFrame_append : addFrame seq payload ++ rest = frameBody seq payload ++
    (crc16Ccitt (frameBody seq payload) >>> 8).toUInt8 ::
    (crc16Ccitt (frameBody seq payload)).toUInt8 :: messageSync :: rest := by
  simp [addFrame]

/-- The payload starts after the two header bytes. -/
theorem addFrame_drop_two : ∃ tail, (addFrame seq payload ++ rest).drop 2 = payload ++ tail := by
  rw [addFrame_append]
  exact ⟨_, rfl⟩

/-- The first byte after the length is the sequence byte. -/
theorem addFrame_getD_one : (addFrame seq payload ++ rest).getD 1 0 = seq := rfl

theorem getD_append_length (xs ys : List UInt8) (y d : UInt8) (n : Nat)
    (h : n = xs.length) : (xs ++ y :: ys).getD n d = y := by
  subst h
  simp

/-- Joining the two CRC bytes of the trailer. -/
theorem crc_bytes (crc : UInt16) :
    (((crc >>> 8).toUInt8).toUInt16 <<< 8) ||| crc.toUInt8.toUInt16 = crc := by
  have hlt := crc.toNat_lt
  apply UInt16.toNat_inj.mp
  have hhi : (((crc >>> 8).toUInt8).toUInt16 <<< 8).toNat = 2 ^ 8 * (crc.toNat / 2 ^ 8) := by
    simp only [UInt16.toNat_shiftLeft, UInt8.toNat_toUInt16,
      UInt16.toNat_toUInt8, UInt16.toNat_shiftRight, Nat.shiftLeft_eq,
      Nat.shiftRight_eq_div_pow]
    rw [show (8 : UInt16).toNat % 16 = 8 from rfl]
    omega
  have hlo : crc.toUInt8.toUInt16.toNat = crc.toNat % 2 ^ 8 := by simp
  rw [UInt16.toNat_or, hhi, hlo, ← Nat.two_pow_add_eq_or_of_lt (Nat.mod_lt _ (by decide))]
  omega

variable (hseq : seq &&& ~~~messageSeqMask = messageDest)
  (hlen : payload.length ≤ messagePayloadMax)

include hseq hlen

/-- **VALID BLOCK**: a framed payload passes the tests, whatever follows it in the buffer. -/
theorem scanBlock_addFrame :
    scanBlock (addFrame seq payload ++ rest) = .block (payload.length + 5) := by
  have hlen' : payload.length ≤ 59 := hlen
  have hmsglen : ((addFrame seq payload ++ rest).getD 0 0).toNat = payload.length + 5 := by
    show (UInt8.ofNat (5 + payload.length)).toNat = _
    rw [UInt8.toNat_ofNat']
    omega
  have hshort : ¬ (addFrame seq payload ++ rest).length < payload.length + 5 := by simp
  have hbuf := addFrame_append seq payload rest
  have hcrc1 : (addFrame seq payload ++ rest).getD (payload.length + 5 - 3) 0
      = (crc16Ccitt (frameBody seq payload) >>> 8).toUInt8 := by
    rw [hbuf]
    exact getD_append_length _ _ _ _ _ (by rw [frameBody_length]; omega)
  have hcrc2 : (addFrame seq payload ++ rest).getD (payload.length + 5 - 2) 0
      = (crc16Ccitt (frameBody seq payload)).toUInt8 := by
    rw [hbuf, List.append_cons]
    exact getD_append_length _ _ _ _ _ (by simp)
  have hsync : (addFrame seq payload ++ rest).getD (payload.length + 5 - 1) 0 = messageSync := by
    rw [hbuf, List.append_cons, List.append_cons]
    exact getD_append_length _ _ _ _ _ (by simp)
  have htake : (addFrame seq payload ++ rest).take (payload.length + 5 - 3)
      = frameBody seq payload := by
    rw [hbuf]
    exact List.take_left' (by rw [frameBody_length]; omega)
  unfold scanBlock
  simp only [hmsglen, addFrame_getD_one]
  rw [if_neg (by show ¬ (_ < 5 ∨ _ > 64); omega), if_neg (not_not.mpr hseq),
    if_neg hshort, if_neg (not_not.mpr hsync), hcrc1, hcrc2, crc_bytes]
  rw [show messageTrailerSize = 3 from rfl, htake, if_neg (not_not.mpr rfl)]

/-- The firmware, in sync, accepts a framed payload with the expected sequence byte, and answers
    others by a nak. -/
theorem commandFindBlock_addFrame (hsync : st.needSync = false) :
    commandFindBlock st (addFrame seq payload ++ rest)
      = if seq ≠ st.nextSequence then
          ⟨-1, payload.length + 5, true, { st with needValid := false }⟩
        else
          ⟨1, payload.length + 5, false,
            { st with
              needValid := false
              nextSequence := ((seq + 1) &&& messageSeqMask) ||| messageDest }⟩ := by
  unfold commandFindBlock
  rw [if_neg (by rw [hsync]; simp), if_neg (addFrame_not_short seq payload rest),
    scanBlock_addFrame seq payload rest hseq hlen]
  rfl

/-- The host, in sync, on a framed payload: the whole block is accepted. -/
theorem msgblockCheck_addFrame : msgblockCheck false (addFrame seq payload ++ rest)
    = (false, ((payload.length + 5 : Nat) : Int)) := by
  rw [msgblockCheck_eq, if_neg (addFrame_not_short seq payload rest), if_neg (by simp),
    scanBlock_addFrame seq payload rest hseq hlen]

end Frame

/-- A block that is accepted lies in the buffer and ends with a SYNC. -/
theorem scanBlock_block {buf : List UInt8} {msglen : Nat} (h : scanBlock buf = .block msglen) :
    messageMin ≤ msglen ∧ msglen ≤ buf.length ∧ buf.getD (msglen - 1) 0 = messageSync := by
  unfold scanBlock at h
  simp only at h
  split at h
  · cases h
  next hgood =>
  split at h
  · cases h
  split at h
  · cases h
  next hlong =>
  split at h
  · cases h
  next hsync =>
  split at h
  · cases h
  cases h
  exact ⟨not_lt.mp fun hlt => hgood (.inl hlt), not_lt.mp hlong, not_not.mp hsync⟩

end Msgblock
