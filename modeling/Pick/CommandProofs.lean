import Pick.MsgprotoProofs
import Pick.RunProofs

/-! # The firmware's command codec (`src/command.c`)

`encode_int` writes a 32-bit word as a variable length quantity and
`parse_int` reads one back modulo `2^32`.  `command_dispatch` walks the
payload of a block: message id, table lookup, parameters, handler.

The receive buffer is a list of bytes and a pointer into it an offset; a
read outside the list, or a call through an empty table entry, is
`Stop.fault`.  `shutdown()` leaves the walk by a long jump and is
`Stop.shutdown`.  The rest of the firmware (the handlers and the shutdown
flag they may change) is a parameter, `Firmware`. -/

namespace Command

open List Msgproto Option Vlq Words

/-! ## Integers -/

/-- `encode_int`: the labels `f1 … f4` are the suffixes of the five byte form. -/
def encodeInt (v : UInt32) : List UInt8 :=
  let sv := v.toInt32.toInt
  let f4 := [(v &&& 0x7f).toUInt8]
  let f3 := (((v >>> 7) &&& 0x7f) ||| 0x80).toUInt8 :: f4
  let f2 := (((v >>> 14) &&& 0x7f) ||| 0x80).toUInt8 :: f3
  let f1 := (((v >>> 21) &&& 0x7f) ||| 0x80).toUInt8 :: f2
  if sv < 3 * 2 ^ 5 ∧ sv ≥ -2 ^ 5 then f4
  else if sv < 3 * 2 ^ 12 ∧ sv ≥ -2 ^ 12 then f3
  else if sv < 3 * 2 ^ 19 ∧ sv ≥ -2 ^ 19 then f2
  else if sv < 3 * 2 ^ 26 ∧ sv ≥ -2 ^ 26 then f1
  else ((v >>> 28) ||| 0x80).toUInt8 :: f1

/-- The `while (c & 0x80)` loop of `parse_int`. -/
def parseIntLoop : UInt32 → UInt8 → List UInt8 → Option (UInt32 × List UInt8)
  | v, c, [] => if c &&& 0x80 = 0 then some (v, []) else none
  | v, c, d :: rest =>
    if c &&& 0x80 = 0 then some (v, d :: rest)
    else parseIntLoop ((v <<< 7) ||| (d &&& 0x7f).toUInt32) d rest

/-- `parse_int`: the word and the bytes after it. -/
def parseInt : List UInt8 → Option (UInt32 × List UInt8)
  | [] => none
  | c :: rest =>
    let v := (c &&& 0x7f).toUInt32
    parseIntLoop (if c &&& 0x60 = 0x60 then v ||| -0x20 else v) c rest

theorem ofInt_congr {v w : Int} (h : v % 2 ^ 32 = w % 2 ^ 32) :
    UInt32.ofInt v = UInt32.ofInt w := by
  rw [UInt32.ofInt, UInt32.ofInt, h]

theorem parseIntLoop_eq (v : Int) (c : UInt8) (s : List UInt8) :
    parseIntLoop (UInt32.ofInt v) c s
      = (decodeLoop v c s).map fun x => (UInt32.ofInt x.1, x.2) := by
  induction s generalizing v c with
  | nil =>
    simp only [parseIntLoop, decodeLoop, and_0x80_eq_zero]
    split <;> rfl
  | cons d rest ih =>
    have hv : (UInt32.ofInt v <<< 7) ||| (d &&& 0x7f).toUInt32
        = UInt32.ofInt (v * 128 + (d.toNat % 128 : Nat)) := by
      rw [shl7_or, UInt32.ofInt_add, UInt32.ofInt_mul, ofInt_natCast]
      rfl
    simp only [parseIntLoop, decodeLoop, and_0x80_eq_zero, hv, ih]
    split <;> rfl

/-- `parse_int` reads the quantity the library reads, modulo `2^32`. -/
theorem parseInt_eq (s : List UInt8) :
    parseInt s = (decode s).map fun x => (.ofInt x.1, x.2) := by
  cases s with
  | nil => rfl
  | cons c rest =>
    have hv : (if c &&& 0x60 = 0x60 then (c &&& 0x7f).toUInt32 ||| -0x20
          else (c &&& 0x7f).toUInt32) = UInt32.ofInt (firstGroup c) := by
      revert c
      exact forall_uint8 (by decide +kernel)
    rw [parseInt, decode, ← parseIntLoop_eq, ← hv]

/-- `encode_int` writes the groups of the unsigned word, in the form chosen
    by its signed reading. -/
theorem encodeInt_eq (v : UInt32) :
    encodeInt v = vlqBytes (vlqExtra v.toInt32.toInt) (v.toNat : Int) := by
  have hv := v.toNat_lt
  have hcont : ∀ n : Nat, n < 32 →
      (((v >>> UInt32.ofNat n) &&& 0x7f) ||| 0x80).toUInt8
        = contByte ((v.toNat : Int) / ((2 ^ n : Nat) : Int)) := by
    intro n hn
    apply UInt8.toNat_inj.mp
    have hg := contGroup_toNat v n
    rw [Nat.mod_eq_of_lt hn] at hg
    rw [contByte_toNat, hg]
    have hc : ((v.toNat : Int) / ((2 ^ n : Nat) : Int)) % 128
        = ((v.toNat / 2 ^ n % 128 : Nat) : Int) := by push_cast; rfl
    rw [hc]
    omega
  have h28 : ((v >>> 28) ||| 0x80).toUInt8
      = contByte ((v.toNat : Int) / ((2 ^ 28 : Nat) : Int)) := by
    have hmask : v >>> 28 = (v >>> 28) &&& 0x7f := by
      apply UInt32.toNat_inj.mp
      rw [UInt32.toNat_and, UInt32.toNat_shiftRight, Nat.shiftRight_eq_div_pow]
      exact (Nat.and_two_pow_sub_one_eq_mod _ 7 ▸ (Nat.mod_eq_of_lt (by
        show v.toNat / 2 ^ 28 < 2 ^ 7
        omega)).symm)
    rw [hmask]
    exact hcont 28 (by decide)
  have hlast : (v &&& 0x7f).toUInt8 = lastByte (v.toNat : Int) := by
    apply UInt8.toNat_inj.mp
    rw [lastGroup_toNat, lastByte_toNat]
    omega
  have h7 := hcont 7 (by decide)
  have h14 := hcont 14 (by decide)
  have h21 := hcont 21 (by decide)
  rw [show UInt32.ofNat 7 = 7 from rfl] at h7
  rw [show UInt32.ofNat 14 = 14 from rfl] at h14
  rw [show UInt32.ofNat 21 = 21 from rfl] at h21
  unfold encodeInt vlqExtra
  simp only [h28, h21, h14, h7, hlast]
  generalize v.toInt32.toInt = sv
  by_cases h4 : sv ≥ 0xc000000 ∨ sv < -0x4000000
  · rw [if_neg (by omega), if_neg (by omega), if_neg (by omega), if_neg (by omega), if_pos h4]
    rfl
  rw [if_neg h4]
  by_cases h3 : sv ≥ 0x180000 ∨ sv < -0x80000
  · rw [if_neg (by omega), if_neg (by omega), if_neg (by omega), if_pos (by omega), if_pos h3]
    rfl
  rw [if_neg h3]
  by_cases h2 : sv ≥ 0x3000 ∨ sv < -0x1000
  · rw [if_neg (by omega), if_neg (by omega), if_pos (by omega), if_pos h2]
    rfl
  rw [if_neg h2]
  by_cases h1 : sv ≥ 0x60 ∨ sv < -0x20
  · rw [if_neg (by omega), if_pos (by omega), if_pos h1]
    rfl
  rw [if_neg h1, if_pos (by omega)]
  rfl

/-- **WHAT THE HOST READS** of a word the firmware wrote: the signed reading,
    except below `-2^26`, where the five byte form carries no sign bits. -/
theorem decode_encodeInt (v : UInt32) (rest : List UInt8) :
    decode (encodeInt v ++ rest)
      = some (if v.toInt32.toInt < -0x4000000 then (v.toNat : Int) else v.toInt32.toInt, rest) := by
  have hv := v.toNat_lt
  have hsv := toInt_toInt32 v
  rw [encodeInt_eq]
  by_cases h4 : vlqExtra v.toInt32.toInt < 4
  · -- the short forms do not see the difference of 2^32
    obtain ⟨hlo, hhi⟩ := vlqExtra_mem _ h4
    have hne : ¬ v.toInt32.toInt < -0x4000000 := by
      intro hlt
      rw [vlqExtra, if_pos (.inr hlt)] at h4
      exact absurd h4 (by decide)
    obtain ⟨j, hj⟩ : ∃ j : Int, (v.toNat : Int)
        = v.toInt32.toInt + 128 ^ (vlqExtra v.toInt32.toInt + 1) * j := by
      generalize vlqExtra v.toInt32.toInt = k at h4
      by_cases hpos : v.toNat < 2 ^ 31
      · rw [if_pos hpos] at hsv
        exact ⟨0, by rw [hsv]; ring⟩
      · rw [if_neg hpos] at hsv
        have hdvd : (128 : Int) ^ (k + 1) ∣ 2 ^ 32 := by
          rw [show (128 : Int) = 2 ^ 7 from rfl, ← pow_mul]
          exact pow_dvd_pow 2 (by omega)
        obtain ⟨j, hj⟩ := hdvd
        exact ⟨j, by rw [← hj, hsv]; ring⟩
    rw [hj, vlqBytes_add_mul, decode_vlqBytes_of_mem _ _ rest hlo hhi, if_neg hne]
  · have hk : vlqExtra v.toInt32.toInt = 4 := by
      unfold vlqExtra at h4 ⊢
      split_ifs at h4 ⊢ <;> omega
    rw [hk, decode_vlqBytes_of_mem 4 _ rest (by omega) (by norm_num; omega)]
    by_cases hlt : v.toInt32.toInt < -0x4000000
    · rw [if_pos hlt]
    · -- four bytes were not enough, so the value is large and positive
      have hbig : v.toInt32.toInt ≥ 0xc000000 := by
        unfold vlqExtra at hk
        split_ifs at hk <;> omega
      rw [if_neg hlt]
      split at hsv
      · rw [hsv]
      · omega

/-! ## Response parameters: firmware to host -/

/-- What the parser of type `t` is meant to return for the word `v`. -/
def sentValue (t : ParamType) (v : UInt32) : ParamValue :=
  .int (if t.signed then v.toInt32.toInt else v.toNat)

/-- The parser consumes exactly the bytes of the word, whatever its value. -/
theorem parse_encodeInt (t : ParamType) (ht : t.isInt = true) (v : UInt32) (pre rest : List UInt8) :
    t.parse (pre ++ encodeInt v ++ rest) pre.length
      = some (.int (if t.signed then
            if v.toInt32.toInt < -0x4000000 then (v.toNat : Int)
            else v.toInt32.toInt
          else v.toNat), pre.length + (encodeInt v).length) := by
  have hdrop : (pre ++ encodeInt v ++ rest).drop pre.length = encodeInt v ++ rest := by
    rw [append_assoc, drop_left]
  have hpos : (pre ++ encodeInt v ++ rest).length - rest.length
      = pre.length + (encodeInt v).length := by
    simp only [length_append]
    omega
  have hu : (if v.toInt32.toInt < -0x4000000 then (v.toNat : Int)
      else v.toInt32.toInt) % 0x100000000 = v.toNat := by
    have hv := v.toNat_lt
    have hmod := toInt32_emod v
    split <;> omega
  rw [ParamType.parse, if_pos ht, hdrop, parseVlq_eq, decode_encodeInt]
  simp only [map_some, hu, hpos]

/-- **RESPONSE ROUND TRIP**: the host reads back the word the firmware sent exactly when the type is
    unsigned or the signed value is not below `-2^26`. -/
theorem response_param_round_trip_iff (t : ParamType) (ht : t.isInt = true)
    (v : UInt32) (pre rest : List UInt8) :
    t.parse (pre ++ encodeInt v ++ rest) pre.length
        = some (sentValue t v, pre.length + (encodeInt v).length)
      ↔ t.signed = false ∨ -0x4000000 ≤ v.toInt32.toInt := by
  have hv := v.toNat_lt
  have hsv := toInt_toInt32 v
  rw [parse_encodeInt t ht, sentValue]
  cases hs : t.signed with
  | false => simp
  | true =>
    by_cases hlt : v.toInt32.toInt < -0x4000000
    · have hne : (v.toNat : Int) ≠ v.toInt32.toInt := by split at hsv <;> omega
      simp [hlt, hne]
    · simp [hlt]
      omega

/-- A signed parameter inside the range, read back with its sign. -/
theorem response_param_round_trip_neg :
    ParamType.int32.parse ([0x05, 0x10] ++ encodeInt (-5) ++ [0x7e]) 2
        = some (sentValue .int32 (-5), 2 + (encodeInt (-5)).length) :=
  (response_param_round_trip_iff .int32 rfl (-5) [0x05, 0x10] [0x7e]).mpr (.inr (by decide))

/-- The most negative stepper position comes back as a positive number. -/
theorem response_param_loses_sign :
    ParamType.int32.parse (encodeInt 0x80000000) 0
        = some (.int 2147483648, (encodeInt 0x80000000).length)
      ∧ sentValue .int32 0x80000000 = .int (-2147483648) := by
  decide

/-! ## Command dispatch: host to firmware -/

/-- How a walk over a block can end early. -/
inductive Stop where
  | shutdown (reason : String)
  | fault
  deriving DecidableEq, Repr

/-- `HF_IN_SHUTDOWN`. -/
def hfInShutdown : Nat := 0x01

/-- `struct command_parser`; an entry that is no command is all zero. -/
structure CommandParser where
  encodedMsgid : Nat := 0
  numArgs : Nat := 0
  flags : Nat := 0
  paramTypes : List ParamType := []
  func : Option String := none
  deriving DecidableEq, Repr

/-- A handler call: the function and the words of `args`. -/
structure Call where
  func : String
  args : List UInt32
  deriving DecidableEq, Repr

/-- The firmware around the parser: the shutdown flag, its report, and the handlers, which may
    read the receive buffer and may shut down. -/
structure Firmware (σ : Type) where
  schedIsShutdown : σ → Bool
  schedReportShutdown : σ → σ
  handler : Call → List UInt8 → σ → Except String σ

/-- `command_parse_msgid`: the id and the offset after it. -/
def commandParseMsgid (buf : List UInt8) (p : Nat) : Option (Nat × Nat) :=
  match buf.drop p with
  | [] => none
  | c :: rest =>
    if c &&& 0x80 = 0 then some (c.toNat, p + 1)
    else
      match rest with
      | [] => none
      | d :: _ => some (((c &&& 0x7f).toNat <<< 7) ||| d.toNat, p + 2)

/-- `command_parsef`: the argument words and the offset after the last
    parameter.  A buffer gives two words, its length and its place. -/
def commandParsef (buf : List UInt8) (maxend : Nat) :
    List ParamType → Nat → Except Stop (List UInt32 × Nat)
  | [], p => .ok ([], p)
  | t :: types, p =>
    if p > maxend then .error (.shutdown "Command parser error")
    else if t.isInt then
      match parseInt (buf.drop p) with
      | none => .error .fault
      | some (v, rest) => do
          let (args, q) ← commandParsef buf maxend types (buf.length - rest.length)
          .ok (v :: args, q)
    else if t = .buffer then
      match buf.drop p with
      | [] => .error .fault
      | len :: _ =>
        if p + 1 + len.toNat > maxend then
          .error (.shutdown "Command parser error")
        else do
          let (args, q) ← commandParsef buf maxend types (p + 1 + len.toNat)
          .ok (len.toUInt32 :: UInt32.ofNat (p + 1) :: args, q)
    else .error (.shutdown "Command parser error")

/-- `command_lookup_parser`. -/
def commandLookupParser (index : List CommandParser) (cmdid : Nat) : Except Stop CommandParser :=
  if cmdid = 0 ∨ cmdid ≥ index.length then .error (.shutdown "Invalid command")
  else .ok (index.getD cmdid {})

/-- The parsing half of one round of the `command_dispatch` loop. -/
def readCommand (index : List CommandParser) (buf : List UInt8)
    (msgend p : Nat) : Except Stop (CommandParser × List UInt32 × Nat) :=
  match commandParseMsgid buf p with
  | none => .error .fault
  | some (cmdid, p) => do
      let cp ← commandLookupParser index cmdid
      let (args, q) ← commandParsef buf msgend cp.paramTypes p
      .ok (cp, args, q)

variable {buf : List UInt8} {p : Nat}

theorem readCommand_eq {index : List CommandParser}
    {msgend p' q cmdid : Nat} {cp : CommandParser} {args : List UInt32}
    (hid : commandParseMsgid buf p = some (cmdid, p'))
    (hcp : commandLookupParser index cmdid = .ok cp)
    (hargs : commandParsef buf msgend cp.paramTypes p' = .ok (args, q)) :
    readCommand index buf msgend p = .ok (cp, args, q) := by
  rw [readCommand, hid]
  simp only [hcp]
  show (commandParsef buf msgend cp.paramTypes p' >>= _) = _
  rw [hargs]
  rfl

variable {σ : Type}

/-- The handler runs unless the machine is shut down and the command is not allowed then.  `k`
    is the rest of the walk. -/
def callHandler (fw : Firmware σ) (buf : List UInt8) (cp : CommandParser)
    (args : List UInt32) (s : σ) (k : σ → List Call × Except Stop σ) : List Call × Except Stop σ :=
  if fw.schedIsShutdown s = true ∧ cp.flags &&& hfInShutdown = 0 then
    k (fw.schedReportShutdown s)
  else
    match cp.func with
    | none => ([], .error .fault)
    | some f =>
      match fw.handler ⟨f, args⟩ buf s with
      | .error reason => ([⟨f, args⟩], .error (.shutdown reason))
      | .ok s' => ((⟨f, args⟩ :: (k s').1), (k s').2)

/-- The `command_dispatch` loop from offset `p`: the calls made and how the walk ended.  Each
    round moves `p` forward. -/
def dispatchLoop (fw : Firmware σ) (index : List CommandParser) (buf : List UInt8) (msgend : Nat) :
    Nat → Nat → σ → List Call × Except Stop σ
  | 0, p, s => ([], if p < msgend then .error .fault else .ok s)
  | n + 1, p, s =>
    if p < msgend then
      match readCommand index buf msgend p with
      | .error e => ([], .error e)
      | .ok (cp, args, q) => callHandler fw buf cp args s (dispatchLoop fw index buf msgend n q)
    else ([], .ok s)

/-- `command_dispatch(buf, msglen)`. -/
def commandDispatch (fw : Firmware σ) (index : List CommandParser)
    (buf : List UInt8) (msglen : Nat) (s : σ) : List Call × Except Stop σ :=
  dispatchLoop fw index buf (msglen - 3) msglen 2 s

/-- Running a list of already parsed commands one after the other. -/
def runCalls (fw : Firmware σ) (buf : List UInt8) :
    List (CommandParser × List UInt32) → σ → List Call × Except Stop σ
  | [], s => ([], .ok s)
  | (cp, args) :: cmds, s => callHandler fw buf cp args s (runCalls fw buf cmds)

/-- `args` are the words of `values`: integers modulo `2^32`, buffers by their length and place. -/
def ArgsMatch (buf : List UInt8) : List ParamValue → List UInt32 → Prop
  | [], args => args = []
  | .int v :: values, args => ∃ rest, args = UInt32.ofInt v :: rest ∧ ArgsMatch buf values rest
  | .bytes b :: values, args =>
    ∃ len ptr rest, args = len :: ptr :: rest ∧ len.toNat = b.length
      ∧ (buf.drop ptr.toNat).take len.toNat = b ∧ ArgsMatch buf values rest

/-! ### Parsing what the host encoded -/

/-- `parse_int` reads back every Python integer modulo `2^32`. -/
theorem parseInt_encodeUint32 (v : Int) (rest : List UInt8) :
    parseInt (encodeUint32 v ++ rest) = some (.ofInt v, rest) := by
  obtain ⟨w, hw, hmod⟩ := decode_encodeUint32 v rest
  rw [parseInt_eq, hw, map_some, ofInt_congr hmod]

/-- Moving a pointer over bytes that are there. -/
theorem drop_add_of_drop {a b : List UInt8}
    (h : buf.drop p = a ++ b) : buf.drop (p + a.length) = b := by
  rw [← drop_drop, h, drop_left]

/-- The offset left by a parser that returns the unread suffix. -/
theorem offset_of_drop {a b : List UInt8} (h : buf.drop p = a ++ b) (ha : a ≠ []) :
    buf.length - b.length = p + a.length := by
  have hlen := congrArg List.length h
  have hpos : 0 < a.length := length_pos_iff.mpr ha
  simp only [length_drop, length_append] at hlen
  omega

theorem encodeUint32_ne_nil (v : Int) : encodeUint32 v ≠ [] := by
  rw [encodeUint32]
  simp

/-- **PARAMETERS**: on the encoding of `values` the parser stops right after
    it and produces the words of the values.  The induction is on the
    parameter types; `p` moves over one encoding at a time. -/
theorem commandParsef_encodeParams {maxend : Nat} (hmax : maxend ≤ 64) :
    ∀ {types : List ParamType} {values : List ParamValue}
      {bytes tail : List UInt8} {p : Nat},
      encodeParams types values = some bytes → (∀ t ∈ types, t.isInt = true ∨ t = .buffer) →
      buf.drop p = bytes ++ tail → p + bytes.length ≤ maxend →
      ∃ args, commandParsef buf maxend types p = .ok (args, p + bytes.length)
        ∧ ArgsMatch buf (values.take types.length) args := by
  intro types
  induction types with
  | nil =>
    intro values bytes tail p henc _ _ _
    obtain rfl : [] = bytes := some.inj henc
    exact ⟨[], rfl, rfl⟩
  | cons t types ih =>
    intro values bytes tail p henc hty hdrop hend
    have hty' : ∀ t' ∈ types, t'.isInt = true ∨ t' = .buffer :=
      fun t' ht' => hty t' (mem_cons_of_mem _ ht')
    cases values with
    | nil => exact nomatch henc
    | cons v values =>
      rw [encodeParams] at henc
      obtain ⟨a, ha, henc⟩ := bind_eq_some_iff.mp henc
      obtain ⟨b, hb, henc⟩ := bind_eq_some_iff.mp henc
      obtain rfl : a ++ b = bytes := some.inj henc
      rw [append_assoc] at hdrop
      rw [length_append] at hend ⊢
      have hdrop' := drop_add_of_drop hdrop
      obtain ⟨args, hargs, hmatch⟩ := ih hb hty' hdrop' (by omega)
      rcases hty t (mem_cons_self ..) with hint | rfl
      · -- an integer: one word
        cases v with
        | bytes b' =>
          rw [ParamType.encode, if_pos hint] at ha
          cases ha
        | int x =>
          rw [ParamType.encode, if_pos hint] at ha
          obtain rfl : encodeUint32 x = a := some.inj ha
          refine ⟨UInt32.ofInt x :: args, ?_, args, rfl, hmatch⟩
          rw [commandParsef, if_neg (by omega), if_pos hint, hdrop, parseInt_encodeUint32]
          simp only [offset_of_drop hdrop (encodeUint32_ne_nil x), hargs]
          rw [add_assoc]
          rfl
      · -- a buffer: its length byte, then the bytes
        cases v with
        | int x => exact nomatch ha
        | bytes c =>
          obtain rfl : UInt8.ofNat c.length :: c = a := some.inj ha
          rw [length_cons] at hend hargs hdrop' ⊢
          have hlen : (UInt8.ofNat c.length).toNat = c.length := by
            rw [UInt8.toNat_ofNat']
            exact Nat.mod_eq_of_lt (by omega)
          have hptr : (UInt32.ofNat (p + 1)).toNat = p + 1 := by
            rw [UInt32.toNat_ofNat']
            exact Nat.mod_eq_of_lt (by omega)
          refine ⟨(UInt8.ofNat c.length).toUInt32
            :: UInt32.ofNat (p + 1) :: args, ?_, _, _, args, rfl,
            ?_, ?_, hmatch⟩
          · rw [commandParsef, if_neg (by omega), if_neg (by decide), if_pos rfl, hdrop]
            simp only [cons_append, hlen]
            rw [if_neg (by omega), show p + 1 + c.length = p + (c.length + 1) by omega,
              hargs, add_assoc]
            rfl
          · rw [UInt8.toNat_toUInt32, hlen]
          · rw [UInt8.toNat_toUInt32, hlen, hptr, ← drop_drop, hdrop, cons_append,
              drop_one, tail_cons, take_left]

/-- The parser writes as many words as `num_args` counts. -/
theorem commandParsef_length {maxend : Nat} {types : List ParamType} {q : Nat} {args : List UInt32}
    (h : commandParsef buf maxend types p = .ok (args, q)) :
    args.length = types.length + types.count .progmemBuffer + types.count .buffer := by
  fun_induction commandParsef buf maxend types p generalizing q args with
  | case1 =>
    cases h
    rfl
  | case2 | case3 | case5 | case6 | case8 => exact nomatch h
  | case4 t types p hp hint v rest hparse ih =>
    -- an integer: one word
    obtain ⟨r, hrec, h⟩ := Result.bind_eq_ok h
    cases h
    have hp : t ≠ .progmemBuffer := by rintro rfl; exact nomatch hint
    have hb : t ≠ .buffer := by rintro rfl; exact nomatch hint
    rw [length_cons, length_cons, ih hrec, count_cons_of_ne hp, count_cons_of_ne hb]
    omega
  | case7 types p hp len rest hdrop hfits hint ih =>
    -- a buffer: two words
    obtain ⟨r, hrec, h⟩ := Result.bind_eq_ok h
    cases h
    rw [length_cons, length_cons, length_cons, ih hrec,
      count_cons_self, count_cons_of_ne (by decide)]
    omega

end Command
