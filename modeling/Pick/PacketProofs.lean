import Pick.MsgblockProofs

/-! # Packets in Python (`klippy/msgproto.py`)

The Python code has a CRC, a test and a builder of message blocks of its own, used to
read dumps.  Its integers are unbounded, and what the C code does by truncation to a
byte is done by a mask.  A packet is a list of integers; a list can hold anything in
Python, and the items that matter here are integers and lists of them. -/

namespace Msgproto

open List Msgblock Option

/-- What a packet can hold. -/
inductive Item where
  | int (n : Nat)
  | list (l : List Nat)
  deriving DecidableEq, Repr

/-- A list of bytes as Python sees it. -/
def bytes (buf : List UInt8) : List Item := buf.map fun b => .int b.toNat

/-- One round of the loop of `crc16_ccitt`. -/
def crcRound (crc data : Nat) : Nat :=
  let data := data ^^^ (crc &&& 0xff)
  let data := data ^^^ ((data &&& 0x0f) <<< 4)
  ((data <<< 8) ||| (crc >>> 8)) ^^^ (data >>> 4) ^^^ (data <<< 3)

/-- The loop of `crc16_ccitt`; `^=` raises `TypeError` for a list. -/
def crcLoop : List Item → Nat → Option Nat
  | [], crc => some crc
  | .int data :: buf, crc => crcLoop buf (crcRound crc data)
  | .list _ :: _, _ => none

/-- `crc16_ccitt`. -/
def crc16Ccitt (buf : List Item) : Option (List Nat) :=
  (crcLoop buf 0xffff).map fun crc => [crc >>> 8, crc &&& 0xff]

/-- The integer `s[pos]`. -/
def intAt (s : List Item) (pos : Nat) : Option Nat :=
  match s[pos]? with
  | some (.int n) => some n
  | _ => none

/-- `MessageParser.check_packet`; `none` where an operation on a list raises.  A list is
    never equal to an integer. -/
def checkPacket (s : List Item) : Option Int :=
  if s.length < messageMin then some 0
  else (intAt s 0).bind fun msglen =>
    if msglen < messageMin ∨ msglen > messageMax then some (-1)
    else (intAt s 1).bind fun msgseq =>
      -- `msgseq & ~MESSAGE_SEQ_MASK`
      if (msgseq >>> 4) <<< 4 ≠ messageDest.toNat then some (-1)
      else if s.length < msglen then some 0
      else if s[msglen - 1]? ≠ some (.int messageSync.toNat) then some (-1)
      else
        let msgcrc := (s.drop (msglen - 3)).take 2
        (crc16Ccitt (s.take (msglen - messageTrailerSize))).map fun crc =>
          if crc.map Item.int ≠ msgcrc then -1 else (msglen : Int)

/-- `MessageParser.encode_msgblock`. -/
def encodeMsgblock (seq : Int) (cmd : List Item) : Option (List Item) :=
  let msglen := messageMin + cmd.length
  let seq := (seq % 16).toNat ||| messageDest.toNat
  let out := [.int msglen, .int seq] ++ cmd
  (crc16Ccitt out).map fun crc => out ++ [.list crc] ++ [.int messageSync.toNat]

/-! ## The CRC -/

@[simp] theorem bytes_length (buf : List UInt8) : (bytes buf).length = buf.length := length_map _

theorem toNat_toUInt8_eq_and (w : UInt16) : w.toUInt8.toNat = w.toNat &&& 0xff := by
  rw [UInt16.toNat_toUInt8]
  exact (Nat.and_two_pow_sub_one_eq_mod _ 8).symm

/-- Masking the low four bits is what shifting a byte leaves of them. -/
theorem toNat_shiftLeft_four (b : UInt8) : (b <<< 4).toNat = (b.toNat &&& 0x0f) <<< 4 := by
  have hmask : b.toNat &&& 0x0f = b.toNat % 2 ^ 4 := Nat.and_two_pow_sub_one_eq_mod _ 4
  rw [hmask, UInt8.toNat_shiftLeft, Nat.shiftLeft_eq, Nat.shiftLeft_eq]
  rw [show (4 : UInt8).toNat % 8 = 4 from rfl]
  omega

/-- Both rounds do the same: no bit is shifted out of the 16-bit word. -/
theorem crcStep_toNat (crc : UInt16) (b : UInt8) :
    (crcStep crc b).toNat = crcRound crc.toNat b.toNat := by
  obtain ⟨d, hd⟩ : ∃ d : UInt8, d = (b ^^^ crc.toUInt8) ^^^ ((b ^^^ crc.toUInt8) <<< 4) := ⟨_, rfl⟩
  have hdata : d.toNat = (b.toNat ^^^ (crc.toNat &&& 0xff))
      ^^^ (((b.toNat ^^^ (crc.toNat &&& 0xff)) &&& 0x0f) <<< 4) := by
    rw [hd, UInt8.toNat_xor, toNat_shiftLeft_four, UInt8.toNat_xor, toNat_toUInt8_eq_and]
  have hlt := d.toNat_lt
  have height : (d.toUInt16 <<< 8).toNat = d.toNat <<< 8 := by
    rw [UInt16.toNat_shiftLeft, UInt8.toNat_toUInt16, Nat.shiftLeft_eq, Nat.shiftLeft_eq,
      show (8 : UInt16).toNat % 16 = 8 from rfl]
    omega
  have hthree : (d.toUInt16 <<< 3).toNat = d.toNat <<< 3 := by
    rw [UInt16.toNat_shiftLeft, UInt8.toNat_toUInt16, Nat.shiftLeft_eq, Nat.shiftLeft_eq,
      show (3 : UInt16).toNat % 16 = 3 from rfl]
    omega
  rw [crcStep, crcRound]
  simp only [← hd, ← hdata]
  rw [UInt16.toNat_xor, UInt16.toNat_xor, UInt16.toNat_or, height, hthree,
    UInt16.toNat_shiftRight, UInt8.toNat_toUInt16, UInt8.toNat_shiftRight]
  rfl

theorem crcLoop_bytes (buf : List UInt8) (crc : UInt16) :
    crcLoop (bytes buf) crc.toNat = some (buf.foldl crcStep crc).toNat := by
  induction buf generalizing crc with
  | nil => rfl
  | cons b buf ih =>
    show crcLoop (bytes buf) (crcRound crc.toNat b.toNat) = _
    rw [← crcStep_toNat]
    exact ih _

/-- **THE SAME CRC**, as the two bytes a block carries. -/
theorem crc16Ccitt_bytes (buf : List UInt8) :
    crc16Ccitt (bytes buf)
      = some [((Msgblock.crc16Ccitt buf) >>> 8).toUInt8.toNat,
          (Msgblock.crc16Ccitt buf).toUInt8.toNat] := by
  have hloop : crcLoop (bytes buf) 0xffff = some (Msgblock.crc16Ccitt buf).toNat :=
    crcLoop_bytes buf 0xffff
  have hlt := (Msgblock.crc16Ccitt buf).toNat_lt
  have hhigh : ((Msgblock.crc16Ccitt buf) >>> 8).toUInt8.toNat
      = (Msgblock.crc16Ccitt buf).toNat >>> 8 := by
    rw [UInt16.toNat_toUInt8, UInt16.toNat_shiftRight, Nat.shiftRight_eq_div_pow,
      Nat.shiftRight_eq_div_pow, show (8 : UInt16).toNat % 16 = 8 from rfl]
    omega
  rw [crc16Ccitt, hloop, hhigh, toNat_toUInt8_eq_and]
  rfl

/-! ## The test of a packet -/

variable {buf : List UInt8}

theorem bytes_getElem? {i : Nat} (hi : i < buf.length) :
    (bytes buf)[i]? = some (.int (buf.getD i 0).toNat) := by
  simp [bytes, hi]

theorem intAt_bytes {i : Nat} (hi : i < buf.length) :
    intAt (bytes buf) i = some (buf.getD i 0).toNat := by
  rw [intAt, bytes_getElem? hi]

theorem and_not_seqMask (b : UInt8) : (b &&& ~~~messageSeqMask).toNat = (b.toNat >>> 4) <<< 4 := by
  have hbits : ∀ x : BitVec 8, x &&& 0xf0#8 = (x >>> 4) <<< 4 := by decide
  have hlt := b.toNat_lt
  have hb : (b &&& ~~~messageSeqMask).toBitVec = (b.toBitVec >>> 4) <<< 4 := hbits b.toBitVec
  rw [← UInt8.toNat_toBitVec, hb, BitVec.toNat_shiftLeft, BitVec.toNat_ushiftRight,
    UInt8.toNat_toBitVec, Nat.shiftLeft_eq, Nat.shiftRight_eq_div_pow]
  omega

/-- The mask leaves the destination bits in Python exactly if it does in C. -/
theorem seq_test_iff (b : UInt8) :
    (b.toNat >>> 4) <<< 4 = messageDest.toNat ↔ b &&& ~~~messageSeqMask = messageDest := by
  rw [← and_not_seqMask, UInt8.toNat_inj]

/-- Two bytes joined to a word are the bytes of the word. -/
theorem eq_joined_iff (w : UInt16) (hi lo : UInt8) :
    w = (hi.toUInt16 <<< 8) ||| lo.toUInt16 ↔ (w >>> 8).toUInt8 = hi ∧ w.toUInt8 = lo := by
  constructor
  · rintro rfl
    have hhi := hi.toNat_lt
    have hlo := lo.toNat_lt
    have hword : ((hi.toUInt16 <<< 8) ||| lo.toUInt16).toNat = 2 ^ 8 * hi.toNat + lo.toNat := by
      rw [UInt16.toNat_or, UInt16.toNat_shiftLeft, UInt8.toNat_toUInt16, UInt8.toNat_toUInt16,
        Nat.shiftLeft_eq, show (8 : UInt16).toNat % 16 = 8 from rfl,
        Nat.two_pow_add_eq_or_of_lt hlo, Nat.mod_eq_of_lt (by omega), mul_comm]
    constructor
    · apply UInt8.toNat_inj.mp
      rw [UInt16.toNat_toUInt8, UInt16.toNat_shiftRight, hword, Nat.shiftRight_eq_div_pow,
        show (8 : UInt16).toNat % 16 = 8 from rfl]
      omega
    · apply UInt8.toNat_inj.mp
      rw [UInt16.toNat_toUInt8, hword]
      omega
  · rintro ⟨rfl, rfl⟩
    exact (crc_bytes w).symm

/-- The bytes Python compares with the CRC. -/
theorem crc_slice {n : Nat} (hmin : 3 ≤ n) (hn : n ≤ buf.length) :
    ((bytes buf).drop (n - 3)).take 2
      = [.int (buf.getD (n - 3) 0).toNat, .int (buf.getD (n - 2) 0).toNat] := by
  have hfirst : (bytes buf)[n - 3]? = _ := bytes_getElem? (by omega)
  have hsecond : (bytes buf)[n - 2]? = _ := bytes_getElem? (by omega)
  rw [take_add_one, take_add_one, getElem?_drop, getElem?_drop,
    show n - 3 + 1 = n - 2 by omega, add_zero, hfirst, hsecond]
  rfl

/-- What `check_packet` returns for the outcome of the tests in C. -/
def scanReturn : Scan → Int
  | .needMoreData => 0
  | .error => -1
  | .block msglen => msglen

/-- **THE SAME TESTS** as those of the C code. -/
theorem checkPacket_bytes (hmin : ¬ buf.length < messageMin) :
    checkPacket (bytes buf) = some (scanReturn (scanBlock buf)) := by
  have hlong : 5 ≤ buf.length := not_lt.mp hmin
  rw [checkPacket, bytes_length, if_neg hmin, intAt_bytes (by omega), intAt_bytes (by omega),
    scanBlock]
  simp only [bind_some, ne_eq, seq_test_iff]
  split
  · rfl
  split
  · rfl
  split
  · rfl
  next hlen _ hshort =>
    have hn : 3 ≤ (buf.getD 0 0).toNat := by
      rw [not_or, not_lt] at hlen
      exact le_trans (by decide) hlen.1
    simp only [bytes_getElem? (show (buf.getD 0 0).toNat - 1 < buf.length by omega),
      some_inj, Item.int.injEq, UInt8.toNat_inj]
    split
    · rfl
    have htake : (bytes buf).take ((buf.getD 0 0).toNat - messageTrailerSize)
        = bytes (buf.take ((buf.getD 0 0).toNat - messageTrailerSize)) := map_take.symm
    rw [htake, crc16Ccitt_bytes, crc_slice hn (not_lt.mp hshort)]
    dsimp only [map_some]
    -- Python compares the two bytes, C the word made of them
    by_cases hcrc : Msgblock.crc16Ccitt (buf.take ((buf.getD 0 0).toNat - messageTrailerSize))
        = (buf.getD ((buf.getD 0 0).toNat - 3) 0).toUInt16 <<< 8
          ||| (buf.getD ((buf.getD 0 0).toNat - 2) 0).toUInt16
    · obtain ⟨hhigh, hlow⟩ := (eq_joined_iff _ _ _).mp hcrc
      rw [if_neg (not_not.mpr hcrc), hhigh, hlow]
      exact congrArg some (if_neg (not_not.mpr rfl))
    · rw [if_pos hcrc]
      refine congrArg some (if_pos fun hbytes => hcrc ((eq_joined_iff _ _ _).mpr ?_))
      injection hbytes with hhigh hbytes
      injection hbytes with hlow
      injection hhigh with hhigh
      injection hlow with hlow
      exact ⟨UInt8.toNat_inj.mp hhigh, UInt8.toNat_inj.mp hlow⟩

/-! ## All the tests -/

/-- How `check_packet` and `msgblock_check` say what they found. -/
def readReturn (ret : Int) : Scan :=
  if ret = 0 then .needMoreData else if ret < 0 then .error else .block ret.toNat

/-- How `command_find_block` says it. -/
def readFind (r : FindResult) : Scan :=
  if r.ret = 0 then .needMoreData else if r.ret < 0 then .error else .block r.popCount

/-- What all of them find. -/
def verdict (buf : List UInt8) : Scan :=
  if buf.length < messageMin then .needMoreData else scanBlock buf

theorem readReturn_scanReturn : readReturn (scanReturn (scanBlock buf)) = scanBlock buf := by
  cases h : scanBlock buf with
  | needMoreData => rfl
  | error => rfl
  | block n =>
    have hpos : 5 ≤ n := (scanBlock_block h).1
    rw [scanReturn, readReturn, if_neg (by omega), if_neg (by omega), Int.toNat_natCast]

theorem checkPacket_verdict (buf : List UInt8) :
    (checkPacket (bytes buf)).map readReturn = some (verdict buf) := by
  rw [verdict]
  split
  · next hmin =>
      rw [checkPacket, bytes_length, if_pos hmin]
      rfl
  · next hmin => rw [checkPacket_bytes hmin, map_some, readReturn_scanReturn]

theorem msgblockCheck_verdict (buf : List UInt8) :
    readReturn (msgblockCheck false buf).2 = verdict buf := by
  rw [verdict, msgblockCheck_eq]
  split
  · rfl
  · next hmin =>
      have hlong : 5 ≤ buf.length := not_lt.mp hmin
      rw [if_neg Bool.false_ne_true]
      cases h : scanBlock buf with
      | needMoreData => rfl
      | error =>
        -- at least one byte is discarded
        dsimp only
        rw [discardToSync]
        split
        · exact (if_neg (by omega)).trans (if_pos (by omega))
        · exact (if_neg (by omega)).trans (if_pos (by omega))
      | block n =>
        have hpos : 5 ≤ n := (scanBlock_block h).1
        dsimp only
        rw [readReturn, if_neg (by omega), if_neg (by omega), Int.toNat_natCast]

theorem findSync_ret (st : FindState) (buf : List UInt8) : (findSync st buf).ret = -1 := by
  rw [findSync]
  cases buf.idxOf? messageSync with
  | none | some i =>
    dsimp only
    split <;> rfl

theorem commandFindBlock_verdict (st : FindState) (buf : List UInt8) :
    readFind (commandFindBlock
      { st with needSync := false, nextSequence := buf.getD 1 0 } buf) = verdict buf := by
  rw [verdict, commandFindBlock, if_neg (fun h => Bool.false_ne_true h.2)]
  split
  · rfl
  · cases scanBlock buf with
    | needMoreData => rfl
    | error =>
      dsimp only
      split
      · rfl
      · rw [readFind, findSync_ret]
        rfl
    | block n =>
      dsimp only
      rw [if_neg (not_not.mpr rfl)]
      rfl

/-- **ALL FRAME CHECKERS AGREE** on the CRC and on the start of a buffer.  The firmware is in
    sync and expects its sequence number, so that the sequence test does not interfere. -/
theorem frame_checkers_agree (buf : List UInt8) :
    crc16Ccitt (bytes buf)
        = some [((Msgblock.crc16Ccitt buf) >>> 8).toUInt8.toNat,
            (Msgblock.crc16Ccitt buf).toUInt8.toNat] ∧
      (∀ len : UInt8, msgblockCrc16Ccitt buf len
        = Msgblock.crc16Ccitt (buf.take len.toNat)) ∧
      (checkPacket (bytes buf)).map readReturn
        = some (readReturn (msgblockCheck false buf).2) ∧
      ∀ st : FindState,
        readFind (commandFindBlock { st with needSync := false, nextSequence := buf.getD 1 0 } buf)
          = readReturn (msgblockCheck false buf).2 := by
  refine ⟨crc16Ccitt_bytes buf, ?_, ?_, ?_⟩
  · intro len
    exact hostCrcLoop_eq len.toNat buf 0xffff
  · rw [checkPacket_verdict, msgblockCheck_verdict]
  · intro st
    rw [commandFindBlock_verdict, msgblockCheck_verdict]

/-- Python accepts the blocks that the C code builds. -/
theorem checkPacket_addFrame (seq : UInt8) (payload rest : List UInt8)
    (hseq : seq &&& ~~~messageSeqMask = messageDest) (hlen : payload.length ≤ messagePayloadMax) :
    checkPacket (bytes (addFrame seq payload ++ rest)) = some (payload.length + 5) := by
  rw [checkPacket_bytes (addFrame_not_short seq payload rest),
    scanBlock_addFrame seq payload rest hseq hlen]
  rfl

/-- A block that holds a SYNC, with the start of the next behind it. -/
theorem checkPacket_addFrame_next :
    checkPacket (bytes (addFrame 0x15 [5, 0x7e, 200] ++ [6, 0x16])) = some 8 :=
  checkPacket_addFrame 0x15 [5, 0x7e, 200] [6, 0x16] rfl (by decide)

/-! ## The builder -/

theorem crcLoop_isSome {buf : List Item} (h : ∀ item ∈ buf, ∃ n, item = .int n) (crc : Nat) :
    ∃ r, crcLoop buf crc = some r := by
  induction buf generalizing crc with
  | nil => exact ⟨crc, rfl⟩
  | cons item buf ih =>
    obtain ⟨n, rfl⟩ := h item mem_cons_self
    exact ih (fun i hi => h i (mem_cons_of_mem _ hi)) _

/-- The CRC is appended as *one* item, a list: `crc16_ccitt` returns two bytes, and they
    are not spliced in. -/
theorem encodeMsgblock_eq (seq : Int) (cmd : List UInt8) :
    ∃ crc, encodeMsgblock seq (bytes cmd)
      = some (.int (messageMin + cmd.length) :: .int ((seq % 16).toNat ||| messageDest.toNat) ::
          (bytes cmd ++ [.list crc, .int messageSync.toNat])) := by
  have hints : ∀ item ∈ .int (messageMin + (bytes cmd).length) ::
      .int ((seq % 16).toNat ||| messageDest.toNat) :: bytes cmd, ∃ n, item = Item.int n := by
    refine forall_mem_cons.mpr ⟨⟨_, rfl⟩, forall_mem_cons.mpr ⟨⟨_, rfl⟩, ?_⟩⟩
    exact forall_mem_map.mpr fun b _ => ⟨_, rfl⟩
  obtain ⟨r, hr⟩ := crcLoop_isSome hints 0xffff
  refine ⟨[r >>> 8, r &&& 0xff], ?_⟩
  have hcrc : crc16Ccitt ([.int (messageMin + (bytes cmd).length),
      .int ((seq % 16).toNat ||| messageDest.toNat)] ++ bytes cmd)
      = some [r >>> 8, r &&& 0xff] := congrArg (Option.map _) hr
  rw [encodeMsgblock, hcrc, bytes_length, map_some, append_assoc]
  rfl

/-- The checker waits for a byte that never comes: the list is one item short. -/
theorem checkPacket_encodeMsgblock (seq : Int) {cmd : List UInt8}
    (hlen : cmd.length ≤ messagePayloadMax) :
    (encodeMsgblock seq (bytes cmd)).bind checkPacket = some 0 := by
  obtain ⟨crc, hcrc⟩ := encodeMsgblock_eq seq cmd
  have hlen' : cmd.length ≤ 59 := hlen
  have hmin : messageMin = 5 := rfl
  have hmax : messageMax = 64 := rfl
  have hseq : ((((seq % 16).toNat ||| messageDest.toNat) >>> 4) <<< 4) = messageDest.toNat := by
    have hlt : (seq % 16).toNat < 2 ^ 4 := by omega
    have hor : (seq % 16).toNat ||| messageDest.toNat = 2 ^ 4 * 1 + (seq % 16).toNat := by
      rw [Nat.two_pow_add_eq_or_of_lt hlt, Nat.or_comm]
      rfl
    rw [hor, Nat.shiftLeft_eq, Nat.shiftRight_eq_div_pow, show messageDest.toNat = 2 ^ 4 from rfl]
    omega
  rw [hcrc, bind_some, checkPacket]
  simp only [intAt, length_cons, length_append, bytes_length, length_nil,
    getElem?_cons_zero, getElem?_cons_succ, bind_some]
  split
  · rfl
  rw [if_neg (by omega), if_neg (not_not.mpr hseq), if_pos (by omega)]

/-- What a frame builder is for: the bytes of a frame that the checker accepts. -/
def BuildsFrame (seq : Int) (cmd : List UInt8) : Prop :=
  ∃ frame : List UInt8, encodeMsgblock seq (bytes cmd) = some (bytes frame) ∧
    frame.length = 5 + cmd.length ∧
    checkPacket (bytes frame) = some ((5 + cmd.length : Nat) : Int)

theorem list_not_mem_bytes (l : List Nat) (buf : List UInt8) : .list l ∉ bytes buf := by
  intro hmem
  obtain ⟨b, -, hb⟩ := mem_map.mp hmem
  cases hb

/-- **NO FRAME IS BUILT**, whatever the command. -/
theorem encodeMsgblock_builds_no_frame (seq : Int) (cmd : List UInt8) : ¬ BuildsFrame seq cmd := by
  rintro ⟨frame, hframe, -, -⟩
  obtain ⟨crc, hcrc⟩ := encodeMsgblock_eq seq cmd
  rw [hcrc, some_inj] at hframe
  apply list_not_mem_bytes crc frame
  rw [← hframe]
  simp

/-- The shortest one: a nested list at the third of four places, where `check_packet`
    waits for more data. -/
theorem encodeMsgblock_nests_crc :
    encodeMsgblock 0 (bytes []) = some [.int 5, .int 0x10, .list [0x9e, 0x81], .int 0x7e] ∧
      checkPacket [.int 5, .int 0x10, .list [0x9e, 0x81], .int 0x7e] = some 0 ∧
      ¬ ∀ (seq : Int) (cmd : List UInt8), cmd.length ≤ 59 → BuildsFrame seq cmd := by
  have hout : encodeMsgblock 0 (bytes [])
      = some [.int 5, .int 0x10, .list [0x9e, 0x81], .int 0x7e] := by decide
  refine ⟨hout, by decide, ?_⟩
  intro hall
  obtain ⟨frame, hframe, -, -⟩ := hall 0 [] (by decide)
  rw [hout, some_inj] at hframe
  apply list_not_mem_bytes [0x9e, 0x81] frame
  rw [← hframe]
  simp

end Msgproto
