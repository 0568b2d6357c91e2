import Pick.VlqProofs
import Pick.WordProofs
import Pick.DictProofs

/-! # The host's message parser (`klippy/msgproto.py`)

`PT_uint32` and its subclasses write a Python integer as a signed variable
length quantity of one to five bytes and read one back; `PT_string` and
its subclasses write a length byte and the bytes.  Python integers are
unbounded, so the encoder accepts every `Int`; the parser masks the value
to 32 bits for the unsigned types only.

A position in the byte string is the suffix not read yet; the parsers
return the Python position, and `none` where Python raises.

A message is named by the first word of its format string and typed by the
`name=%type` words after it.  Of what `MessageParser` learns from the data
dictionary only the formats by name are used to send commands.  Enumerations are
left out: they replace a text by an integer before the integer is encoded. -/

namespace Msgproto

open Option Vlq Words

/-- The parameter classes, as `MessageTypes` lists them. -/
inductive ParamType where
  | uint32 | int32 | uint16 | int16 | byte
  | string | progmemBuffer | buffer
  deriving DecidableEq, Repr

namespace ParamType

/-- `is_int`. -/
def isInt : ParamType → Bool
  | .uint32 | .int32 | .uint16 | .int16 | .byte => true
  | .string | .progmemBuffer | .buffer => false

/-- `signed`: inherited along `PT_int16 → PT_int32 → PT_uint32`. -/
def signed : ParamType → Bool
  | .int32 | .int16 => true
  | _ => false

/-- `max_length`. -/
def maxLength : ParamType → Nat
  | .uint32 | .int32 => 5
  | .uint16 | .int16 => 3
  | .byte => 2
  | .string | .progmemBuffer | .buffer => 64

end ParamType

/-- A parameter value: an integer, or the bytes of a dynamic string. -/
inductive ParamValue where
  | int (v : Int)
  | bytes (b : List UInt8)
  deriving DecidableEq, Repr

/-- `PT_uint32.encode`: four optional leading groups and the last group. -/
def encodeUint32 (v : Int) : List UInt8 :=
  (if v ≥ 0xc000000 ∨ v < -0x4000000 then [contByte (v >>> (28 : Nat))] else [])
    ++ (if v ≥ 0x180000 ∨ v < -0x80000 then [contByte (v >>> (21 : Nat))] else [])
    ++ (if v ≥ 0x3000 ∨ v < -0x1000 then [contByte (v >>> (14 : Nat))] else [])
    ++ (if v ≥ 0x60 ∨ v < -0x20 then [contByte (v >>> (7 : Nat))] else [])
    ++ [lastByte v]

/-- The `while c & 0x80` loop of `PT_uint32.parse`. -/
def parseLoop : Int → UInt8 → List UInt8 → Option (Int × List UInt8)
  | v, c, [] => if c &&& 0x80 = 0 then some (v, []) else none
  | v, c, d :: rest =>
    if c &&& 0x80 = 0 then some (v, d :: rest)
    else parseLoop (v * 128 + (d &&& 0x7f).toNat) d rest

/-- `PT_uint32.parse` before the final mask.  `v |= -0x20` keeps the low five
    bits and sets all the others. -/
def parseVlq : List UInt8 → Option (Int × List UInt8)
  | [] => none
  | c :: rest =>
    let v : Int := (c &&& 0x7f).toNat
    parseLoop (if c &&& 0x60 = 0x60 then v % 32 - 32 else v) c rest

namespace ParamType

/-- `encode`: the bytes appended to `out`. -/
def encode (t : ParamType) : ParamValue → Option (List UInt8)
  | .int v => if t.isInt then some (encodeUint32 v) else none
  | .bytes b => if t.isInt then none else some (.ofNat b.length :: b)

/-- `parse(s, pos)`: the value and the new position. -/
def parse (t : ParamType) (s : List UInt8) (pos : Nat) : Option (ParamValue × Nat) :=
  if t.isInt then
    (parseVlq (s.drop pos)).map fun (v, rest) =>
      (.int (if t.signed then v else v % 0x100000000), s.length - rest.length)
  else
    match s.drop pos with
    | [] => none
    | l :: rest => some (.bytes (rest.take l.toNat), pos + l.toNat + 1)

end ParamType

/-- The loop of `MessageFormat.encode` over `param_types`: `params[i]` raises
    when there are too few parameters. -/
def encodeParams : List ParamType → List ParamValue → Option (List UInt8)
  | [], _ => some []
  | _ :: _, [] => none
  | t :: types, v :: values => do
      let a ← t.encode v
      let b ← encodeParams types values
      some (a ++ b)

/-! ## Format strings -/

/-- The characters `str.split()` splits at. -/
def isSpace (c : Char) : Bool :=
  let n := c.toNat
  (9 ≤ n && n ≤ 13) || (28 ≤ n && n ≤ 32) || n == 0x85 || n == 0xa0
    || n == 0x1680 || (0x2000 ≤ n && n ≤ 0x200a) || n == 0x2028
    || n == 0x2029 || n == 0x202f || n == 0x205f || n == 0x3000

/-- `str.split()`; `cur` is the word read so far. -/
def splitWords (cur : List Char) : List Char → List (List Char)
  | [] => if cur = [] then [] else [cur]
  | c :: cs =>
    if isSpace c = false then splitWords (cur ++ [c]) cs
    else if cur = [] then splitWords [] cs
    else cur :: splitWords [] cs

/-- `str.split(sep)`; `cur` is the part read so far. -/
def splitAtChar (sep : Char) (cur : List Char) : List Char → List (List Char)
  | [] => [cur]
  | c :: cs =>
    if c = sep then cur :: splitAtChar sep [] cs
    else splitAtChar sep (cur ++ [c]) cs

/-- `msgformat.split()[0]`. -/
def nameOf (msgformat : String) : Option String :=
  (splitWords [] msgformat.toList).head?.map String.ofList

/-- `MessageTypes`. -/
def messageTypes : List (String × ParamType) :=
  [("%u", .uint32), ("%i", .int32), ("%hu", .uint16), ("%hi", .int16),
   ("%c", .byte), ("%s", .string), ("%.*s", .progmemBuffer),
   ("%*s", .buffer)]

/-- One round of `lookup_params`: the word has exactly one `=`. -/
def lookupParam (arg : List Char) : Option (String × ParamType) :=
  match splitAtChar '=' [] arg with
  | [name, fmt] => (Dict.get messageTypes (String.ofList fmt)).map (String.ofList name, ·)
  | _ => none

/-- `lookup_params`. -/
def lookupParams (msgformat : String) : Option (List (String × ParamType)) :=
  (splitWords [] msgformat.toList).tail.mapM lookupParam

/-- `MessageFormat`. -/
structure MessageFormat where
  msgidBytes : List UInt8
  msgformat : String
  name : String
  paramNames : List (String × ParamType)
  deriving DecidableEq, Repr

/-- `MessageFormat.__init__`. -/
def MessageFormat.init (msgidBytes : List UInt8) (msgformat : String) :
    Option MessageFormat := do
  let name ← nameOf msgformat
  let paramNames ← lookupParams msgformat
  some ⟨msgidBytes, msgformat, name, paramNames⟩

/-- `param_types`. -/
def MessageFormat.paramTypes (mf : MessageFormat) : List ParamType := mf.paramNames.map Prod.snd

/-- `MessageFormat.encode`. -/
def MessageFormat.encode (mf : MessageFormat) (params : List ParamValue) : Option (List UInt8) :=
  (encodeParams mf.paramTypes params).map (mf.msgidBytes ++ ·)

/-! ## The message parser -/

/-- `DefaultMessages`. -/
def defaultMessages : List (String × Nat) :=
  [("identify_response offset=%u data=%.*s", 0), ("identify offset=%u count=%c", 1)]

/-- The message part of the firmware's data dictionary. -/
structure DataDictionary where
  commands : List (String × Int)
  responses : List (String × Int)
  output : List (String × Int)
  deriving DecidableEq, Repr

/-- `MessageParser`: what `lookup_command` reads. -/
structure MessageParser where
  warnPrefix : String := ""
  messagesByName : List (String × MessageFormat) := []
  deriving DecidableEq, Repr

namespace MessageParser

/-- `_init_messages`: a debugging output gets no entry by name. -/
def initMessages (commandIds outputIds : List Int) :
    List (String × Int) → MessageParser → Option MessageParser
  | [], mp => some mp
  | (msgformat, msgid) :: messages, mp =>
    if msgid ∉ commandIds ∧ msgid ∈ outputIds then
      initMessages commandIds outputIds messages mp
    else do
      let msg ← MessageFormat.init (encodeUint32 msgid) msgformat
      initMessages commandIds outputIds messages
        { mp with messagesByName := Dict.set mp.messagesByName msg.name msg }

/-- `MessageParser.__init__`. -/
def init (warnPrefix : String) : Option MessageParser :=
  initMessages [] [] (defaultMessages.map fun m => (m.1, (m.2 : Int))) { warnPrefix }

/-- `process_identify`, after decompression and JSON. -/
def processIdentify (data : DataDictionary) (mp : MessageParser) : Option MessageParser :=
  let allMessages := Dict.update (Dict.update data.commands data.responses) data.output
  initMessages (data.commands.map Prod.snd) (data.output.map Prod.snd) allMessages mp

/-- `lookup_command`. -/
def lookupCommand (mp : MessageParser) (msgformat : String) : Except String MessageFormat :=
  match nameOf msgformat with
  | none => .error "list index out of range"
  | some msgname =>
    match Dict.get mp.messagesByName msgname with
    | none => .error (mp.warnPrefix ++ "Unknown command: " ++ msgname)
    | some mf =>
      if msgformat ≠ mf.msgformat then
        .error (mp.warnPrefix ++ "Command format mismatch: " ++ msgformat ++ " vs " ++ mf.msgformat)
      else .ok mf

end MessageParser

/-! ## The codec is the library's -/

theorem parseLoop_eq (v : Int) (c : UInt8) (s : List UInt8) :
    parseLoop v c s = decodeLoop v c s := by
  induction s generalizing v c with
  | nil => simp only [parseLoop, decodeLoop, and_0x80_eq_zero]
  | cons d rest ih => simp only [parseLoop, decodeLoop, and_0x80_eq_zero, and_0x7f_toNat, ih]

theorem parseVlq_eq (s : List UInt8) : parseVlq s = decode s := by
  cases s with
  | nil => rfl
  | cons c rest =>
    have hv : (if c &&& 0x60 = 0x60
          then ((c &&& 0x7f).toNat : Int) % 32 - 32
          else (c &&& 0x7f).toNat) = firstGroup c := by
      rw [firstGroup, and_0x7f_toNat]
      by_cases h : 96 ≤ c.toNat % 128
      · rw [if_pos ((and_0x60_eq c).mpr h), if_pos h]
        omega
      · rw [if_neg (mt (and_0x60_eq c).mp h), if_neg h]
    rw [parseVlq, decode, ← parseLoop_eq, ← hv]

/-- The number of continuation bytes the encoder writes. -/
def vlqExtra (v : Int) : Nat :=
  if v ≥ 0xc000000 ∨ v < -0x4000000 then 4
  else if v ≥ 0x180000 ∨ v < -0x80000 then 3
  else if v ≥ 0x3000 ∨ v < -0x1000 then 2
  else if v ≥ 0x60 ∨ v < -0x20 then 1
  else 0

theorem encodeUint32_eq (v : Int) : encodeUint32 v = vlqBytes (vlqExtra v) v := by
  have hs : ∀ n : Nat, v >>> n = v / ((2 ^ n : Nat) : Int) := fun n => Int.shiftRight_eq_div_pow v n
  unfold encodeUint32 vlqExtra
  -- the four thresholds are nested, so the tests of the shorter forms follow
  by_cases h4 : v ≥ 0xc000000 ∨ v < -0x4000000
  · rw [if_pos h4, if_pos (by omega), if_pos (by omega), if_pos (by omega),
      if_pos h4, hs, hs, hs, hs]
    rfl
  rw [if_neg h4, if_neg h4]
  by_cases h3 : v ≥ 0x180000 ∨ v < -0x80000
  · rw [if_pos h3, if_pos (by omega), if_pos (by omega), if_pos h3, hs, hs, hs]
    rfl
  rw [if_neg h3, if_neg h3]
  by_cases h2 : v ≥ 0x3000 ∨ v < -0x1000
  · rw [if_pos h2, if_pos (by omega), if_pos h2, hs, hs]
    rfl
  rw [if_neg h2, if_neg h2]
  by_cases h1 : v ≥ 0x60 ∨ v < -0x20
  · rw [if_pos h1, if_pos h1, hs]
    rfl
  rw [if_neg h1, if_neg h1]
  rfl

/-- The forms below five bytes are only chosen for values they can name. -/
theorem vlqExtra_mem (v : Int) (h : vlqExtra v < 4) :
    -32 * 128 ^ vlqExtra v ≤ v ∧ v < 96 * 128 ^ vlqExtra v := by
  unfold vlqExtra at h ⊢
  split at h
  · omega
  rw [if_neg ‹_›]
  split
  · norm_num; omega
  split
  · norm_num; omega
  split
  · norm_num; omega
  · norm_num; omega

/-- Reading what `PT_uint32.encode` wrote gives the value modulo `2^32`, and
    leaves the bytes after it. -/
theorem decode_encodeUint32 (v : Int) (rest : List UInt8) :
    ∃ w : Int, decode (encodeUint32 v ++ rest) = some (w, rest) ∧ w % 2 ^ 32 = v % 2 ^ 32 := by
  rw [encodeUint32_eq]
  by_cases h : vlqExtra v < 4
  · obtain ⟨hlo, hhi⟩ := vlqExtra_mem v h
    exact ⟨v, decode_vlqBytes_of_mem _ v rest hlo hhi, rfl⟩
  · have h4 : vlqExtra v = 4 := by
      unfold vlqExtra at h ⊢
      split at h <;> split_ifs at h ⊢ <;> omega
    refine ⟨_, decode_vlqBytes _ v rest, ?_⟩
    have hmod := signGroup_emod 4 v
    rw [h4]
    norm_num at hmod ⊢
    omega

/-! ## What the parser knows after `process_identify` -/

namespace MessageParser

theorem init_name {msgidBytes : List UInt8} {msgformat : String} {mf : MessageFormat}
    (h : MessageFormat.init msgidBytes msgformat = some mf) : nameOf msgformat = some mf.name := by
  obtain ⟨name, hname, h⟩ := bind_eq_some_iff.mp h
  obtain ⟨types, -, h⟩ := bind_eq_some_iff.mp h
  cases h
  exact hname

/-- Numbering `msgformat` as `msgid` under its name; the loop keeps the entry when no other
    message has that name. -/
theorem initMessages_get {commandIds outputIds : List Int}
    {messages : List (String × Int)} {mp mp' : MessageParser}
    {mf : MessageFormat} {m : String} {i : Int}
    (hmf : MessageFormat.init (encodeUint32 i) m = some mf)
    (huniq : ∀ m' i', (m', i') ∈ messages →
      ¬(i' ∉ commandIds ∧ i' ∈ outputIds) → nameOf m' = some mf.name →
      m' = m ∧ i' = i)
    (hin : (m, i) ∈ messages ∧ ¬(i ∉ commandIds ∧ i ∈ outputIds)
      ∨ Dict.get mp.messagesByName mf.name = some mf)
    (h : initMessages commandIds outputIds messages mp = some mp') :
    Dict.get mp'.messagesByName mf.name = some mf := by
  fun_induction initMessages commandIds outputIds messages mp with
  | case1 mp =>
    obtain rfl : mp = mp' := some.inj h
    exact hin.resolve_left fun hm => nomatch hm.1
  | case2 m' i' messages mp hout ih =>
    -- a debugging output: not the message looked for
    refine ih (fun m'' i'' hm => huniq m'' i'' (List.mem_cons_of_mem _ hm)) ?_ h
    refine hin.imp_left fun hm => ⟨(List.mem_cons.mp hm.1).resolve_left fun heq => ?_, hm.2⟩
    cases heq
    exact hm.2 hout
  | case3 m' i' messages mp hout ih =>
    obtain ⟨msg, hmsg, h⟩ := bind_eq_some_iff.mp h
    refine ih msg (fun m'' i'' hm => huniq m'' i'' (List.mem_cons_of_mem _ hm)) ?_ h
    by_cases hname : msg.name = mf.name
    · -- the same name: the same message
      obtain ⟨rfl, rfl⟩ := huniq m' i' (List.mem_cons_self ..) hout (hname ▸ init_name hmsg)
      obtain rfl : msg = mf := some.inj (hmsg.symm.trans hmf)
      exact .inr (Dict.get_set_self ..)
    · rw [Dict.get_set_ne _ _ hname]
      refine hin.imp_left fun hm => ⟨(List.mem_cons.mp hm.1).resolve_left fun heq => ?_, hm.2⟩
      cases heq
      exact hname (congrArg MessageFormat.name (some.inj (hmsg.symm.trans hmf)))

end MessageParser

end Msgproto
