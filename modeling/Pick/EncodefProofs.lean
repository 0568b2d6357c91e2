import Pick.BuildcommandsProofs

/-! # Encoding a response (`command_encodef` in `src/command.c`)

`build_parser` computes `max_size` for the encoder of a message, and `console_sendf`
keeps that many bytes free in `transmit_buf`.  `command_encodef` writes behind the
header, and looks at the end of this space, `maxend`, before each parameter only.  A
string is cut off there with its length byte counted, a buffer without it, and an
integer is not cut off at all. -/

namespace Command

open List Msgblock Msgproto

/-- An argument of `sendf`: the word that `encode_int` gets, the bytes of a string before
    its NUL, or a length with the memory behind a pointer. -/
inductive Arg where
  | int (t : ParamType) (ht : t.isInt = true) (v : UInt32)
  | string (s : List UInt8)
  | buffer (progmem : Bool) (v : UInt32) (s : ℕ → UInt8)

/-- The type that an argument is for. -/
def Arg.type : Arg → ParamType
  | .int t _ _ => t
  | .string _ => .string
  | .buffer true _ _ => .progmemBuffer
  | .buffer false _ _ => .buffer

/-- `max_size` in `build_parser`. -/
def encoderMaxSize (encodedMsgid : ℕ) (types : List ParamType) : ℕ :=
  min messageMax (messageMin + (if encodedMsgid ≥ 0x80 then 2 else 1) +
    (types.map ParamType.maxLength).sum)

/-- `encode_msgid`. -/
def encodeMsgid (encodedMsgid : ℕ) : List UInt8 :=
  (if encodedMsgid ≥ 0x80 then [UInt8.ofNat (encodedMsgid / 128) ||| 0x80] else []) ++
    [UInt8.ofNat (encodedMsgid % 128)]

/-- The bytes written for a parameter; `room` is `maxend - p`. -/
def encodeArg (room : ℕ) : Arg → List UInt8
  | .int _ _ v => encodeInt v
  | .string s => UInt8.ofNat (s.take (room - 1)).length :: s.take (room - 1)
  | .buffer _ v s => UInt8.ofNat (min v.toNat room) :: (List.range (min v.toNat room)).map s

/-- How the encoding ends, with the bytes written behind the header. -/
inductive Encoded where
  | sent (payload : List UInt8)
  | shutdown (written : List UInt8)

/-- The loop over the parameters; `cap` is the distance of `maxend` from the header. -/
def encodeArgs (cap : ℕ) (out : List UInt8) : List Arg → Encoded
  | [] => .sent out
  | a :: rest =>
    if out.length > cap then .shutdown out
    else encodeArgs cap (out ++ encodeArg (cap - out.length) a) rest

/-- `command_encodef`. -/
def commandEncodef (encodedMsgid maxSize : ℕ) (args : List Arg) : Encoded :=
  if maxSize ≤ messageMin then .sent []
  else encodeArgs (maxSize - messageMin) (encodeMsgid encodedMsgid) args

/-- The number of bytes from the start of the message that are written to: all that is
    returned as its length, with the frame, or the header and what a shutdown leaves. -/
def Encoded.extent : Encoded → ℕ
  | .sent payload => payload.length + messageMin
  | .shutdown written => written.length + 2

/-- `sizeof(transmit_buf)`. -/
def transmitBufSize : ℕ := 96

/-- All bytes of an argument. -/
def Arg.size : Arg → ℕ
  | .int _ _ v => (encodeInt v).length
  | .string s => s.length + 1
  | .buffer _ v _ => v.toNat + 1

/-- How far an argument that has no room is written beyond the end. -/
def Arg.excess (room : ℕ) : Arg → ℕ
  | .int _ _ v => (encodeInt v).length - room
  | _ => 1

/-- Only strings are cut off. -/
def Arg.isString : Arg → Bool
  | .string _ => true
  | _ => false

/-- The arguments have room; or the first without is a string, which is cut off; or one is at
    most three bytes too long and another follows, so that the next test shuts down. -/
def Roomy : ℕ → List Arg → Prop
  | _, [] => True
  | room, a :: rest =>
    if a.size ≤ room then Roomy (room - a.size) rest
    else if a.isString = true ∧ 0 < room then Roomy 0 rest
    else rest ≠ [] ∧ a.excess room ≤ 3

/-! ## What is written -/

variable {room : ℕ} {a : Arg}

theorem length_encodeArg_of_le (h : a.size ≤ room) :
    (encodeArg room a).length = a.size := by
  cases a with
  | int t ht v => rfl
  | string s =>
    have hs : s.length + 1 ≤ room := h
    rw [encodeArg, length_cons, length_take, min_eq_right (by omega)]
    rfl
  | buffer progmem v s =>
    have hv : v.toNat + 1 ≤ room := h
    rw [encodeArg, length_cons, length_map, length_range, min_eq_left (by omega)]
    rfl

theorem length_encodeArg_cut (hstring : a.isString = true)
    (hroom : 0 < room) (h : ¬ a.size ≤ room) : (encodeArg room a).length = room := by
  cases a with
  | string s =>
    have hs : ¬ s.length + 1 ≤ room := h
    rw [encodeArg, length_cons, length_take, min_eq_left (by omega)]
    omega
  | int | buffer => exact nomatch hstring

theorem length_encodeArg_excess (h : ¬ a.size ≤ room)
    (hcut : ¬ (a.isString = true ∧ 0 < room)) :
    (encodeArg room a).length = room + a.excess room ∧ 1 ≤ a.excess room := by
  cases a with
  | int t ht v =>
    have hv : ¬ (encodeInt v).length ≤ room := h
    show (encodeInt v).length = room + ((encodeInt v).length - room) ∧
      1 ≤ (encodeInt v).length - room
    omega
  | string s =>
    have hzero : room = 0 := Nat.eq_zero_of_not_pos fun hpos => hcut ⟨rfl, hpos⟩
    subst hzero
    exact ⟨rfl, le_rfl⟩
  | buffer progmem v s =>
    have hv : ¬ v.toNat + 1 ≤ room := h
    rw [encodeArg, length_cons, length_map, length_range, min_eq_right (by omega)]
    exact ⟨rfl, le_rfl⟩

/-- The loop stays inside exactly if the arguments are `Roomy`. -/
theorem extent_encodeArgs {cap : ℕ} {out : List UInt8} (args : List Arg) (hout : out.length ≤ cap) :
    (encodeArgs cap out args).extent ≤ cap + messageMin ↔ Roomy (cap - out.length) args := by
  induction args generalizing out with
  | nil =>
    show out.length + messageMin ≤ cap + messageMin ↔ True
    exact iff_of_true (by omega) trivial
  | cons a rest ih =>
    rw [encodeArgs, if_neg (by omega), Roomy]
    split
    · next hfits =>
        have hlen := length_encodeArg_of_le hfits
        rw [ih (by rw [length_append, hlen]; omega), length_append, hlen, Nat.sub_add_eq]
    · next hlong =>
        split
        · next hcut =>
            have hlen := length_encodeArg_cut hcut.1 hcut.2 hlong
            rw [ih (by rw [length_append, hlen]; omega), length_append, hlen,
              show cap - (out.length + (cap - out.length)) = 0 by omega]
        · next hcut =>
            obtain ⟨hlen, hpos⟩ := length_encodeArg_excess hlong hcut
            have hover : (out ++ encodeArg (cap - out.length) a).length =
                cap + a.excess (cap - out.length) := by
              rw [length_append, hlen]
              omega
            cases rest with
            | nil =>
              -- nothing looks at `maxend` again
              rw [encodeArgs, Encoded.extent, hover]
              exact iff_of_false (by omega) fun h => h.1 rfl
            | cons b rest =>
              rw [encodeArgs, if_pos (by omega), Encoded.extent, hover,
                and_iff_right (cons_ne_nil b rest)]
              show cap + _ + 2 ≤ cap + 5 ↔ _
              omega

/-- **A RESPONSE FITS** into the space of `build_parser`, and stays inside `transmit_buf`
    wherever it is put, exactly if its arguments are `Roomy`. -/
theorem response_fits_iff (encodedMsgid : ℕ) (args : List Arg) :
    let maxSize := encoderMaxSize encodedMsgid (args.map Arg.type)
    let written := (commandEncodef encodedMsgid maxSize args).extent
    (written ≤ maxSize ∧ maxSize ≤ messageMax ∧ ∀ tmax,
        tmax + maxSize ≤ transmitBufSize → tmax + written ≤ transmitBufSize) ↔
      Roomy (maxSize - messageMin - (encodeMsgid encodedMsgid).length) args := by
  intro maxSize written
  have hid : (encodeMsgid encodedMsgid).length = if encodedMsgid ≥ 0x80 then 2 else 1 := by
    rw [encodeMsgid]
    split <;> rfl
  have hmax : maxSize ≤ messageMax := min_le_left _ _
  have hroom : messageMin + (encodeMsgid encodedMsgid).length ≤ maxSize := by
    rw [hid]
    refine le_min ?_ (Nat.le_add_right ..)
    show 5 + _ ≤ 64
    split <;> omega
  have hpos : 1 ≤ (encodeMsgid encodedMsgid).length := by
    rw [hid]
    split <;> omega
  have hwritten : written = (encodeArgs (maxSize - messageMin)
      (encodeMsgid encodedMsgid) args).extent := by
    show (commandEncodef _ _ _).extent = _
    rw [commandEncodef, if_neg (by omega)]
  rw [← extent_encodeArgs args (by omega), ← hwritten, Nat.sub_add_cancel (by omega)]
  exact ⟨fun h => h.1, fun h => ⟨h, hmax, fun tmax htmax => by omega⟩⟩

/-- `i2c_read_response oid=%c response=%*s` with 57 bytes is sent with a length of 65, and
    the last of them is written behind `transmit_buf`. -/
theorem response_overruns :
    let args := [Arg.int .byte rfl 0, .buffer false 57 fun _ => 0]
    encoderMaxSize 20 (args.map Arg.type) = 64 ∧
      (commandEncodef 20 64 args).extent = 65 ∧ 32 + 64 ≤ transmitBufSize ∧
      ¬ 32 + (commandEncodef 20 64 args).extent ≤ transmitBufSize := by
  decide +kernel

end Command
