import Pick.CommandProofs
import Pick.MsgblockProofs

/-! # The message dictionary (`scripts/buildcommands.py`)

At build time every command, response and output format gets a number,
the encoded message id: the two default messages come first, the others
are counted up from there.  The firmware indexes its command table with
the number; the host is told the signed reading of its one or two byte
form (`convert_encoded_msgid`) and writes that as a variable length
quantity.

The two ends agree as long as the signed reading of a two byte id does not fit in
one byte, which is the case below `16352`. -/

namespace Buildcommands

open Command Dict List Msgblock Msgproto Option Vlq Words

/-! ## Registration -/

/-- The build time requests found in the firmware's object files. -/
inductive Request where
  | declCommandFlags (funcname : String) (flags : Nat) (msg : String)
  | declEncoder (msg : String)
  | declOutput (msg : String)
  deriving DecidableEq, Repr

/-- `HandleCommandGeneration` before the ids are made. -/
structure CommandGeneration where
  commands : List (String × (String × Nat × String)) := []
  encoders : List (Option String × String) := []
  messagesByName : List (String × String) :=
    defaultMessages.filterMap fun m => (nameOf m.1).map (·, m.1)
  deriving DecidableEq, Repr

/-- The conflict test shared by `decl_command` and `decl_encoder`, and the
    new `messages_by_name`. -/
def addMessage (kind : String) (byName : List (String × String))
    (msgname msg : String) : Except String (List (String × String)) :=
  match Dict.get byName msgname with
  | none => .ok (Dict.set byName msgname msg)
  | some m =>
    if m ≠ msg then
      .error ("Conflicting definition for " ++ kind ++ " '" ++ msgname ++ "'")
    else .ok (Dict.set byName msgname msg)

/-- `decl_command`. -/
def declCommand (g : CommandGeneration) (funcname : String) (flags : Nat)
    (msg : String) : Except String CommandGeneration :=
  match nameOf msg with
  | none => .error "not enough values to unpack (expected 3, got 2)"
  | some msgname =>
    if (Dict.get g.commands msgname).isSome then
      .error ("Multiple definitions for command '" ++ msgname ++ "'")
    else
      (addMessage "command" g.messagesByName msgname msg).map fun byName =>
        { g with
          commands := Dict.set g.commands msgname (funcname, flags, msgname)
          messagesByName := byName }

/-- `decl_encoder`. -/
def declEncoder (g : CommandGeneration) (msg : String) : Except String CommandGeneration :=
  match nameOf msg with
  | none => .error "list index out of range"
  | some msgname =>
    (addMessage "message" g.messagesByName msgname msg).map fun byName =>
      { g with
        messagesByName := byName
        encoders := g.encoders ++ [(some msgname, msg)] }

/-- One line of the request file. -/
def handleRequest (g : CommandGeneration) :
    Request → Except String CommandGeneration
  | .declCommandFlags funcname flags msg => declCommand g funcname flags msg
  | .declEncoder msg => declEncoder g msg
  | .declOutput msg => .ok { g with encoders := g.encoders ++ [(none, msg)] }

/-- The request file, from a given state on. -/
def handleRequests (g : CommandGeneration) :
    List Request → Except String CommandGeneration
  | [] => .ok g
  | r :: reqs =>
    match handleRequest g r with
    | .error e => .error e
    | .ok g' => handleRequests g' reqs

/-! ## Message ids -/

/-- The loop of `create_message_ids`: the last number given out and `msg_to_encid`. -/
def assignIds (byName : List (String × String)) :
    List String → Nat → List (String × Nat) → Nat × List (String × Nat)
  | [], encid, ids => (encid, ids)
  | msgname :: mlist, encid, ids =>
    let msg := (Dict.get byName msgname).getD msgname
    if (Dict.get ids msg).isSome then assignIds byName mlist encid ids
    else assignIds byName mlist (encid + 1) (Dict.set ids msg (encid + 1))

/-- `create_message_ids`: `msg_to_encid`.  The largest number of `DefaultMessages` is `1`. -/
def createMessageIds (g : CommandGeneration) : Except String (List (String × Nat)) :=
  let mlist := keys g.commands ++ g.encoders.map Prod.snd
  let r := assignIds g.messagesByName mlist 1 defaultMessages
  if r.1 ≥ 1 <<< 14 then .error "Too many message ids" else .ok r.2

/-- `convert_encoded_msgid`. -/
def convertEncodedMsgid (encodedMsgid : Nat) : Option Int :=
  let data : List UInt8 :=
    if encodedMsgid ≥ 0x80 then
      [UInt8.ofNat ((encodedMsgid >>> 7) ||| 0x80), UInt8.ofNat (encodedMsgid &&& 0x7f)]
    else [UInt8.ofNat encodedMsgid]
  match ParamType.int32.parse data 0 with
  | some (.int v, _) => some v
  | _ => none

/-- `update_data_dictionary`: what the host is told. -/
def updateDataDictionary (g : CommandGeneration) (ids : List (String × Nat)) :
    Option DataDictionary := do
  let msgToMsgid ← ids.mapM fun e => (convertEncodedMsgid e.2).map (e.1, ·)
  let commandIds ← (g.messagesByName.filter fun e =>
    (Dict.get g.commands e.1).isSome).mapM fun e => Dict.get msgToMsgid e.2
  let responseIds ← (g.messagesByName.filter fun e =>
    (Dict.get g.commands e.1).isNone).mapM fun e => Dict.get msgToMsgid e.2
  some {
    commands := msgToMsgid.filter fun e => e.2 ∈ commandIds
    responses := msgToMsgid.filter fun e => e.2 ∈ responseIds
    output := msgToMsgid.filter fun e =>
      e.2 ∉ commandIds ∧ e.2 ∉ responseIds }

/-- `build_parser` for an entry of the command table, with its flags and function. -/
def buildParser (encodedMsgid : Nat) (msgformat : String) (flags : Nat)
    (funcname : String) : Option CommandParser := do
  let params ← lookupParams msgformat
  let types := params.map Prod.snd
  some {
    encodedMsgid
    numArgs := types.length + types.count .progmemBuffer + types.count .buffer
    flags
    paramTypes := types
    func := some funcname }

/-- `cmd_by_encid`. -/
def cmdByEncid (g : CommandGeneration) (ids : List (String × Nat)) :
    Option (List (Nat × (String × Nat × String))) := do
  let entries ← g.commands.mapM fun e =>
    (Dict.get ids ((Dict.get g.messagesByName e.1).getD e.1)).map (·, e.2)
  some (Dict.update [] entries)

/-- An entry of `command_index`: a number that no command has is empty. -/
def indexEntry (g : CommandGeneration)
    (byEncid : List (Nat × (String × Nat × String))) (encodedMsgid : Nat) : Option CommandParser :=
  match Dict.get byEncid encodedMsgid with
  | none => some {}
  | some (funcname, flags, msgname) => do
      let msg ← Dict.get g.messagesByName msgname
      buildParser encodedMsgid msg flags funcname

/-- `generate_commands_code`: the table `command_index`. -/
def generateCommandsCode (g : CommandGeneration) (ids : List (String × Nat)) :
    Option (List CommandParser) := do
  let byEncid ← cmdByEncid g ids
  let maxCmdEncid ← (keys byEncid).max?
  (List.range (maxCmdEncid + 1)).mapM (indexEntry g byEncid)

/-- The payload of a block: the encodings of its commands. -/
def encodeCommands (mp : MessageParser) :
    List (String × List ParamValue) → Option (List UInt8)
  | [] => some []
  | (msgformat, params) :: cmds =>
    match mp.lookupCommand msgformat with
    | .error _ => none
    | .ok mf => do
        let a ← mf.encode params
        let b ← encodeCommands mp cmds
        some (a ++ b)

/-! ## The requests keep the tables consistent -/

/-- Messages are filed under their own name, and every command has one. -/
structure CommandGeneration.Consistent (g : CommandGeneration) : Prop where
  names : ∀ k m, (k, m) ∈ g.messagesByName → nameOf m = some k
  messagesNodup : (keys g.messagesByName).Nodup
  commandsNodup : (keys g.commands).Nodup
  commandMsg : ∀ k c, (k, c) ∈ g.commands → c.2.2 = k ∧ k ∈ keys g.messagesByName

theorem consistent_init : ({} : CommandGeneration).Consistent where
  names := by
    have hall : ∀ e ∈ ({} : CommandGeneration).messagesByName, nameOf e.2 = some e.1 := by decide
    exact fun k m hm => hall (k, m) hm
  messagesNodup := by decide
  commandsNodup := nodup_nil
  commandMsg := nofun

variable {msg m : String} {e p flags : Nat} {i : Int} {buf tail : List UInt8}

theorem addMessage_ok {kind : String} {byName byName' : List (String × String)}
    {msgname : String} (h : addMessage kind byName msgname msg = .ok byName') :
    byName' = Dict.set byName msgname msg := by
  unfold addMessage at h
  split at h
  · exact (Except.ok.inj h).symm
  · split at h
    · cases h
    · exact (Except.ok.inj h).symm

variable {g : CommandGeneration} {ids : List (String × Nat)} {encid : Nat}
  {name funcname msg : String}

/-- Filing a message under its name keeps the messages consistent. -/
theorem CommandGeneration.Consistent.setMessage (hg : g.Consistent)
    {msgname : String} (hname : nameOf msg = some msgname)
    (encoders : List (Option String × String)) :
    ({ g with messagesByName := Dict.set g.messagesByName msgname msg
              encoders } : CommandGeneration).Consistent where
  names := by
    intro k m hm
    rcases mem_set hm with heq | hm
    · cases heq
      exact hname
    · exact hg.names k m hm
  messagesNodup := keys_set_nodup hg.messagesNodup ..
  commandsNodup := hg.commandsNodup
  commandMsg := fun k c hc =>
    ⟨(hg.commandMsg k c hc).1, mem_keys_set (.inr (hg.commandMsg k c hc).2)⟩

theorem handleRequest_consistent {g g' : CommandGeneration} {r : Request}
    (hg : g.Consistent) (h : handleRequest g r = .ok g') : g'.Consistent := by
  cases r with
  | declCommandFlags funcname flags msg =>
    rw [handleRequest, declCommand] at h
    split at h
    · cases h
    · rename_i msgname hname
      split at h
      · cases h
      · obtain ⟨byName, hadd, rfl⟩ := Result.map_eq_ok h
        obtain rfl := addMessage_ok hadd
        have hset := hg.setMessage hname g.encoders
        refine ⟨hset.names, hset.messagesNodup, keys_set_nodup hg.commandsNodup .., ?_⟩
        intro k c hc
        rcases mem_set hc with heq | hc
        · cases heq
          exact ⟨rfl, mem_keys_set (.inl rfl)⟩
        · exact hset.commandMsg k c hc
  | declEncoder msg =>
    rw [handleRequest, declEncoder] at h
    split at h
    · cases h
    · rename_i msgname hname
      obtain ⟨byName, hadd, rfl⟩ := Result.map_eq_ok h
      obtain rfl := addMessage_ok hadd
      exact hg.setMessage hname _
  | declOutput msg =>
    cases h
    exact { hg with }

theorem handleRequests_consistent {reqs : List Request}
    {g g' : CommandGeneration} (hg : g.Consistent)
    (h : handleRequests g reqs = .ok g') : g'.Consistent := by
  fun_induction handleRequests g reqs with
  | case1 =>
    cases h
    exact hg
  | case2 => cases h
  | case3 g r reqs g₁ hr ih => exact ih (handleRequest_consistent hg hr) h

/-! ## The numbering -/

/-- The message that has number `0`. -/
def identifyResponse : String := "identify_response offset=%u data=%.*s"

/-- The numbers given out so far are `0 … encid`, each to one message. -/
structure Numbered (encid : Nat) (ids : List (String × Nat)) : Prop where
  nodup : (keys ids).Nodup
  values : ids.map Prod.snd = List.range (encid + 1)
  zero : Dict.get ids identifyResponse = some 0

theorem numbered_default : Numbered 1 defaultMessages := by
  constructor <;> decide

theorem Numbered.inj {encid : Nat} (hn : Numbered encid ids) {m' : String}
    (hm : Dict.get ids m = some e) (hm' : Dict.get ids m' = some e) : m = m' := by
  have hnd : (ids.map Prod.snd).Nodup := hn.values ▸ nodup_range
  have heq := inj_on_of_nodup_map hnd (mem_of_get hm) (mem_of_get hm') rfl
  exact (Prod.mk.inj heq).1

theorem Numbered.length (hn : Numbered encid ids) : ids.length = encid + 1 := by
  rw [← length_map Prod.snd, hn.values, length_range]

theorem Numbered.lt {encid : Nat} (hn : Numbered encid ids) (hm : (m, e) ∈ ids) :
    e < ids.length := by
  have hmem : e ∈ ids.map Prod.snd := mem_map.mpr ⟨(m, e), hm, rfl⟩
  rw [hn.values, mem_range] at hmem
  rw [hn.length]
  exact hmem

/-- A new message gets the next number. -/
theorem Numbered.add (hn : Numbered encid ids) (hnone : Dict.get ids msg = none) :
    Numbered (encid + 1) (Dict.set ids msg (encid + 1)) where
  nodup := keys_set_nodup hn.nodup ..
  values := by
    rw [set_of_get_none _ hnone, map_append, hn.values, range_succ (n := encid + 1)]
    rfl
  zero := by
    have hne : msg ≠ identifyResponse := by
      rintro rfl
      rw [hn.zero] at hnone
      cases hnone
    rw [get_set_ne _ _ hne, hn.zero]

/-- The loop of `create_message_ids` keeps the numbers there are and numbers every message of
    its list. -/
theorem assignIds_spec (byName : List (String × String)) (mlist : List String)
    (encid : Nat) (ids : List (String × Nat)) (hn : Numbered encid ids) :
    Numbered (assignIds byName mlist encid ids).1
        (assignIds byName mlist encid ids).2
      ∧ (∀ m e, Dict.get ids m = some e →
          Dict.get (assignIds byName mlist encid ids).2 m = some e)
      ∧ ∀ name ∈ mlist, ∃ e, Dict.get (assignIds byName mlist encid ids).2
          ((Dict.get byName name).getD name) = some e := by
  fun_induction assignIds byName mlist encid ids with
  | case1 => exact ⟨hn, fun _ _ h => h, nofun⟩
  | case2 name mlist encid ids msg hknown ih =>
    obtain ⟨hnum, hkeep, hall⟩ := ih hn
    obtain ⟨e, he⟩ := isSome_iff_exists.mp hknown
    exact ⟨hnum, hkeep, forall_mem_cons.mpr ⟨⟨e, hkeep _ _ he⟩, hall⟩⟩
  | case3 name mlist encid ids msg hnew ih =>
    have hget : Dict.get ids msg = none := not_isSome_iff_eq_none.mp hnew
    obtain ⟨hnum, hkeep, hall⟩ := ih (hn.add hget)
    refine ⟨hnum, fun m e hm => hkeep m e ?_, forall_mem_cons.mpr
      ⟨⟨encid + 1, hkeep _ _ (get_set_self ..)⟩, hall⟩⟩
    have hne : msg ≠ m := by
      rintro rfl
      cases hget.symm.trans hm
    rw [get_set_ne _ _ hne, hm]

theorem createMessageIds_spec (h : createMessageIds g = .ok ids) :
    (∃ encid, Numbered encid ids)
      ∧ ∀ name ∈ keys g.commands,
          ∃ e, Dict.get ids ((Dict.get g.messagesByName name).getD name) = some e := by
  unfold createMessageIds at h
  simp only at h
  split at h
  · cases h
  · cases h
    obtain ⟨hnum, -, hall⟩ := assignIds_spec g.messagesByName
      (keys g.commands ++ g.encoders.map Prod.snd) 1 defaultMessages
      numbered_default
    exact ⟨⟨_, hnum⟩, fun name hname => hall name (mem_append_left _ hname)⟩

/-! ## Message ids on the wire -/

/-- The number of continuation bytes of a number on the wire. -/
def msgidExtra (e : Nat) : Nat := if e ≥ 0x80 then 1 else 0

/-- `convert_encoded_msgid` and `encode_msgid` write the one or two byte form. -/
theorem msgidData_eq (e : Nat) (he : e < 2 ^ 14) :
    (if e ≥ 0x80 then [UInt8.ofNat ((e >>> 7) ||| 0x80), UInt8.ofNat (e &&& 0x7f)]
      else [UInt8.ofNat e]) = vlqBytes (msgidExtra e) e := by
  unfold msgidExtra
  by_cases h : e ≥ 0x80
  · have hhi : (e >>> 7) ||| 0x80 = ((e : Int) / 128 ^ 1 % 128).toNat + 128 := by
      rw [Nat.shiftRight_eq_div_pow, or_0x80 (by omega)]
      omega
    have hlo : e &&& 0x7f = ((e : Int) % 128).toNat := by
      rw [Nat.and_two_pow_sub_one_eq_mod e 7]
      omega
    rw [if_pos h, if_pos h, hhi, hlo]
    rfl
  · have hlo : e = ((e : Int) % 128).toNat := by omega
    rw [if_neg h, if_neg h]
    show [UInt8.ofNat e] = [UInt8.ofNat ((e : Int) % 128).toNat]
    rw [← hlo]

/-- The signed reading of a number. -/
theorem convertEncodedMsgid_eq (e : Nat) (he : e < 2 ^ 14) :
    convertEncodedMsgid e = some
      (if e < 0x60 then (e : Int) else if e < 0x80 then e - 0x80
        else if e < 0x3000 then e else e - 0x4000) := by
  have hdec := decode_vlqBytes (msgidExtra e) e []
  rw [append_nil] at hdec
  have hval : signGroup ((e : Int) / 128 ^ msgidExtra e) * 128 ^ msgidExtra e
        + e % 128 ^ msgidExtra e
      = if e < 0x60 then (e : Int) else if e < 0x80 then e - 0x80
        else if e < 0x3000 then e else e - 0x4000 := by
    unfold msgidExtra signGroup
    split_ifs <;> omega
  unfold convertEncodedMsgid
  simp only [msgidData_eq e he]
  rw [ParamType.parse, if_pos (show ParamType.int32.isInt = true from rfl),
    drop_zero, parseVlq_eq, hdec, hval]
  rfl

theorem convertEncodedMsgid_inj {e' : Nat} (he : e < 16352)
    (he' : e' < 16352) (h : convertEncodedMsgid e = convertEncodedMsgid e') : e = e' := by
  rw [convertEncodedMsgid_eq e (by omega), convertEncodedMsgid_eq e' (by omega),
    some.injEq] at h
  split_ifs at h <;> omega

/-- Below `16352` the host writes a message id in the form the firmware counts in. -/
theorem encodeUint32_convertEncodedMsgid (he : e < 16352) (h : convertEncodedMsgid e = some i) :
    encodeUint32 i = vlqBytes (msgidExtra e) e := by
  rw [convertEncodedMsgid_eq e (by omega), some.injEq] at h
  have hextra : vlqExtra i = msgidExtra e := by
    subst h
    unfold vlqExtra msgidExtra
    split_ifs <;> omega
  have hres : ∃ j : Int, (e : Int) = i + 128 ^ (msgidExtra e + 1) * j := by
    refine ⟨if e < 0x60 then 0 else if e < 0x80 then 1
      else if e < 0x3000 then 0 else 1, ?_⟩
    subst h
    unfold msgidExtra
    split_ifs <;> omega
  obtain ⟨j, hj⟩ := hres
  rw [encodeUint32_eq, hextra, hj, vlqBytes_add_mul]

theorem commandParseMsgid_vlqBytes
    (he : e < 2 ^ 14) (h : buf.drop p = vlqBytes (msgidExtra e) e ++ tail) :
    commandParseMsgid buf p = some (e, p + (vlqBytes (msgidExtra e) e).length) := by
  rw [vlqBytes_length]
  unfold commandParseMsgid
  unfold msgidExtra at h ⊢
  by_cases hk : e ≥ 0x80
  · rw [if_pos hk] at h ⊢
    have hc := contByte_toNat ((e : Int) / 128 ^ (0 + 1))
    have hd := lastByte_toNat (e : Int)
    have hnot : ¬contByte ((e : Int) / 128 ^ (0 + 1)) &&& 0x80 = 0 := by
      rw [and_0x80_eq_zero]
      omega
    have hand := and_0x7f_toNat (contByte ((e : Int) / 128 ^ (0 + 1)))
    have hor : ((contByte ((e : Int) / 128 ^ (0 + 1)) &&& 0x7f).toNat <<< 7)
        ||| (lastByte (e : Int)).toNat = e := by
      rw [Nat.shiftLeft_eq, mul_comm, ← Nat.two_pow_add_eq_or_of_lt (i := 7) (by omega)]
      omega
    rw [h]
    simp only [vlqBytes, cons_append, nil_append]
    rw [if_neg hnot, hor]
  · rw [if_neg hk] at h ⊢
    have hd := lastByte_toNat (e : Int)
    have hzero : lastByte (e : Int) &&& 0x80 = 0 := by
      rw [and_0x80_eq_zero]
      omega
    rw [h]
    simp only [vlqBytes, cons_append, nil_append]
    rw [if_pos hzero, show (lastByte (e : Int)).toNat = e by omega]

/-! ## The two sides of the dictionary -/

/-- A command with its message and number. -/
structure Registered (g : CommandGeneration) (ids : List (String × Nat))
    (name funcname : String) (flags : Nat) (msg : String) (e : Nat) : Prop where
  command : Dict.get g.commands name = some (funcname, flags, name)
  message : Dict.get g.messagesByName name = some msg
  number : Dict.get ids msg = some e

theorem registered_of_mem (hg : g.Consistent) (hids : createMessageIds g = .ok ids)
    {name : String} (h : name ∈ keys g.commands) :
    ∃ funcname flags msg e, Registered g ids name funcname flags msg e := by
  obtain ⟨⟨funcname, flags, name'⟩, hcmd⟩ := get_of_mem_keys h
  obtain ⟨hname, hkey⟩ := hg.commandMsg name _ (mem_of_get hcmd)
  obtain rfl : name' = name := hname
  obtain ⟨msg, hmsg⟩ := get_of_mem_keys hkey
  obtain ⟨e, he⟩ := (createMessageIds_spec hids).2 name' h
  rw [hmsg, getD_some] at he
  exact ⟨funcname, flags, msg, e, hcmd, hmsg, he⟩

/-- Two entries of `messages_by_name` with the same message are one. -/
theorem CommandGeneration.Consistent.name_unique (hg : g.Consistent) {k k' : String}
    (h : Dict.get g.messagesByName k = some m)
    (h' : Dict.get g.messagesByName k' = some m) : k = k' := by
  have hk := hg.names k m (mem_of_get h)
  have hk' := hg.names k' m (mem_of_get h')
  exact some.inj (hk.symm.trans hk')

/-- `cmd_by_encid` finds a command under its number. -/
theorem cmdByEncid_get {byEncid : List (Nat × (String × Nat × String))}
    (hg : g.Consistent) (hn : Numbered encid ids) (hby : cmdByEncid g ids = some byEncid)
    (hr : Registered g ids name funcname flags msg e) :
    Dict.get byEncid e = some (funcname, flags, name) := by
  obtain ⟨entries, hentries, hby⟩ := bind_eq_some_iff.mp hby
  cases hby
  refine get_update_of_mem ?_ ?_
  · refine (mem_mapM_iff hentries).mpr
      ⟨(name, funcname, flags, name), mem_of_get hr.command, ?_⟩
    rw [hr.message, getD_some, hr.number]
    rfl
  · -- another command with this number has the same message, so the same name
    intro w hw
    obtain ⟨⟨k, c⟩, hmem, hk⟩ := (mem_mapM_iff hentries).mp hw
    obtain ⟨e', he', hpair⟩ := map_eq_some_iff.mp hk
    cases hpair
    obtain ⟨m, hm⟩ := get_of_mem_keys (hg.commandMsg k c hmem).2
    rw [hm, getD_some] at he'
    obtain rfl := hn.inj he' hr.number
    obtain rfl := hg.name_unique hm hr.message
    have hget := get_of_mem hg.commandsNodup hmem
    exact some.inj (hget.symm.trans hr.command)

/-- **THE FIRMWARE'S SIDE**: the table entry of a command's number is the
    parser built for the command. -/
theorem generateCommandsCode_get {index : List CommandParser} (hg : g.Consistent)
    (hn : Numbered encid ids) (hindex : generateCommandsCode g ids = some index)
    (hr : Registered g ids name funcname flags msg e) :
    ∃ cp, buildParser e msg flags funcname = some cp ∧ index[e]? = some cp := by
  obtain ⟨byEncid, hby, hindex⟩ := bind_eq_some_iff.mp hindex
  obtain ⟨maxCmd, hmax, hindex⟩ := bind_eq_some_iff.mp hindex
  have hget := cmdByEncid_get hg hn hby hr
  have hle : e ≤ maxCmd := (max?_eq_some_iff.mp hmax).2 e (mem_keys_of_get hget)
  have hentry := congrArg (·[e]?) (map_eq_of_mapM hindex)
  simp only [getElem?_map, getElem?_range (Nat.lt_succ_of_le hle),
    map_some, indexEntry, hget] at hentry
  obtain ⟨cp, hcp, hentry⟩ := map_eq_some_iff.mp hentry.symm
  obtain ⟨m, hm, hbuild⟩ := bind_eq_some_iff.mp hentry.symm
  obtain rfl := some.inj (hm.symm.trans hr.message)
  exact ⟨cp, hbuild, hcp⟩

/-- What `update_data_dictionary` computes: `mm` is `msg_to_msgid`, `cs` and
    `rs` are `command_ids` and `response_ids`. -/
theorem updateDataDictionary_spec {data : DataDictionary}
    (h : updateDataDictionary g ids = some data) :
    ∃ (mm : List (String × Int)) (cs rs : List Int),
      (∀ m i, (m, i) ∈ mm ↔
        ∃ e, (m, e) ∈ ids ∧ convertEncodedMsgid e = some i)
      ∧ (∀ i, i ∈ cs ↔ ∃ k m, (k, m) ∈ g.messagesByName
          ∧ (Dict.get g.commands k).isSome ∧ Dict.get mm m = some i)
      ∧ (∀ i, i ∈ rs ↔ ∃ k m, (k, m) ∈ g.messagesByName
          ∧ (Dict.get g.commands k).isNone ∧ Dict.get mm m = some i)
      ∧ data.commands = mm.filter (fun e => e.2 ∈ cs)
      ∧ data.responses = mm.filter (fun e => e.2 ∈ rs)
      ∧ data.output = mm.filter (fun e => e.2 ∉ cs ∧ e.2 ∉ rs) := by
  obtain ⟨mm, hmm, h⟩ := bind_eq_some_iff.mp h
  obtain ⟨cs, hcs, h⟩ := bind_eq_some_iff.mp h
  obtain ⟨rs, hrs, h⟩ := bind_eq_some_iff.mp h
  cases h
  refine ⟨mm, cs, rs, ?_, ?_, ?_, rfl, rfl, rfl⟩
  · intro m i
    rw [mem_mapM_iff hmm]
    constructor
    · rintro ⟨⟨m', e⟩, hmem, he⟩
      obtain ⟨i', hi', hpair⟩ := map_eq_some_iff.mp he
      cases hpair
      exact ⟨e, hmem, hi'⟩
    · rintro ⟨e, hmem, hi⟩
      exact ⟨(m, e), hmem, by rw [hi]; rfl⟩
  · intro i
    rw [mem_mapM_iff hcs]
    simp only [mem_filter, Prod.exists, and_assoc]
  · intro i
    rw [mem_mapM_iff hrs]
    simp only [mem_filter, Prod.exists, and_assoc]

section MessageIds

variable {ids : List (String × Nat)} {mm : List (String × Int)} {encid : Nat}
  (hn : Numbered encid ids)
  (hmm : ∀ m i, (m, i) ∈ mm ↔ ∃ e, (m, e) ∈ ids ∧ convertEncodedMsgid e = some i)
include hn hmm

/-- A message of `msg_to_msgid` has one signed id. -/
theorem msgid_unique {i' : Int} (h : (m, i) ∈ mm) (h' : (m, i') ∈ mm) : i = i' := by
  obtain ⟨e₁, h₁, hi⟩ := (hmm m i).mp h
  obtain ⟨e₂, h₂, hi'⟩ := (hmm m i').mp h'
  have h₁₂ := (get_of_mem hn.nodup h₁).symm.trans (get_of_mem hn.nodup h₂)
  cases h₁₂
  exact some.inj (hi.symm.trans hi')

/-- A signed id is that of one message. -/
theorem message_unique (hlen : ids.length < 16352) {m' : String}
    (h : (m, i) ∈ mm) (h' : (m', i) ∈ mm) : m = m' := by
  obtain ⟨e₁, h₁, hi⟩ := (hmm m i).mp h
  obtain ⟨e₂, h₂, hi'⟩ := (hmm m' i).mp h'
  obtain rfl := convertEncodedMsgid_inj (lt_trans (hn.lt h₁) hlen)
    (lt_trans (hn.lt h₂) hlen) (hi.trans hi'.symm)
  exact hn.inj (get_of_mem hn.nodup h₁) (get_of_mem hn.nodup h₂)

end MessageIds

/-- **THE HOST'S SIDE**: after `process_identify` a command is listed under its name, with its
    id bytes. -/
theorem processIdentify_get {data : DataDictionary} {mp mp' : MessageParser}
    (hg : g.Consistent) (hn : Numbered encid ids) (hlen : ids.length < 16352)
    (hdata : updateDataDictionary g ids = some data) (hmp : mp.processIdentify data = some mp')
    (hr : Registered g ids name funcname flags msg e)
    {params : List (String × ParamType)} (hparams : lookupParams msg = some params) :
    Dict.get mp'.messagesByName name = some ⟨vlqBytes (msgidExtra e) e, msg, name, params⟩ := by
  obtain ⟨mm, cs, rs, hmm, hcs, hrs, hc, hresp, hout⟩ := updateDataDictionary_spec hdata
  have hmsg := mem_of_get hr.message
  have hnum := mem_of_get hr.number
  have he : e < 16352 := lt_trans (hn.lt hnum) hlen
  obtain ⟨i, hi⟩ : ∃ i, convertEncodedMsgid e = some i := ⟨_, convertEncodedMsgid_eq e (by omega)⟩
  have hmem : (msg, i) ∈ mm := (hmm msg i).mpr ⟨e, hnum, hi⟩
  have hics : i ∈ cs := (hcs i).mpr ⟨name, msg, hmsg, by rw [hr.command]; rfl,
    get_of_mem_unique hmem fun w hw => msgid_unique hn hmm hw hmem⟩
  have hcmd : (msg, i) ∈ data.commands := by
    rw [hc, mem_filter]
    exact ⟨hmem, decide_eq_true hics⟩
  -- every message of the dictionary comes from `msg_to_msgid`
  have hcsub : ∀ x ∈ data.commands, x ∈ mm := fun x hx => (mem_filter.mp (hc ▸ hx)).1
  have hrsub : ∀ x ∈ data.responses, x ∈ mm := fun x hx => (mem_filter.mp (hresp ▸ hx)).1
  have hosub : ∀ x ∈ data.output, x ∈ mm := fun x hx => (mem_filter.mp (hout ▸ hx)).1
  have hall : (msg, i) ∈ Dict.update (Dict.update data.commands data.responses) data.output := by
    refine mem_of_get (get_update_of_get (get_update_of_get
      (get_of_mem_unique hcmd ?_) ?_) ?_)
    · exact fun w hw => msgid_unique hn hmm (hcsub _ hw) hmem
    · exact fun w hw => msgid_unique hn hmm (hrsub _ hw) hmem
    · exact fun w hw => msgid_unique hn hmm (hosub _ hw) hmem
  have hname := hg.names name msg hmsg
  have hinit : MessageFormat.init (encodeUint32 i) msg
      = some ⟨vlqBytes (msgidExtra e) e, msg, name, params⟩ := by
    rw [MessageFormat.init, hname, hparams, encodeUint32_convertEncodedMsgid he hi]
    rfl
  refine MessageParser.initMessages_get hinit ?_ (.inl ⟨hall, ?_⟩) hmp
  · -- a message that is listed by name is filed under that name
    intro m' i' hm' hlisted hname'
    have hm'mm : (m', i') ∈ mm := by
      rcases mem_update hm' with hm' | hm'
      · exact (mem_update hm').elim (hcsub _) (hrsub _)
      · exact hosub _ hm'
    have hids : i' ∈ cs ∨ i' ∈ rs := by
      by_contra hno
      obtain ⟨hnc, hnr⟩ := not_or.mp hno
      refine hlisted ⟨fun hin => ?_, ?_⟩
      · obtain ⟨x, hx, rfl⟩ := mem_map.mp hin
        rw [hc, mem_filter] at hx
        exact hnc (of_decide_eq_true hx.2)
      · refine mem_map.mpr ⟨(m', i'), ?_, rfl⟩
        rw [hout, mem_filter]
        exact ⟨hm'mm, decide_eq_true ⟨hnc, hnr⟩⟩
    obtain ⟨k, m'', hk, hget⟩ : ∃ k m'', (k, m'') ∈ g.messagesByName
        ∧ Dict.get mm m'' = some i' := by
      rcases hids with h | h
      · obtain ⟨k, m'', hk, -, hget⟩ := (hcs i').mp h
        exact ⟨k, m'', hk, hget⟩
      · obtain ⟨k, m'', hk, -, hget⟩ := (hrs i').mp h
        exact ⟨k, m'', hk, hget⟩
    obtain rfl := message_unique hn hmm hlen (mem_of_get hget) hm'mm
    have hkn := (hg.names k m'' hk).symm.trans hname'
    obtain rfl : k = name := some.inj hkn
    have hmm' := (get_of_mem hg.messagesNodup hk).symm.trans hr.message
    cases hmm'
    exact ⟨rfl, msgid_unique hn hmm hm'mm hmem⟩
  · rintro ⟨hnot, -⟩
    exact hnot (mem_map.mpr ⟨(msg, i), hcmd, rfl⟩)

/-! ## Dispatching a block the host encoded -/

/-- Every command takes integers and `%*s` buffers only. -/
def PlainCommands (g : CommandGeneration) : Prop :=
  ∀ name ∈ keys g.commands, ∀ msg params, Dict.get g.messagesByName name = some msg →
    lookupParams msg = some params →
    ∀ p ∈ params, p.2.isInt = true ∨ p.2 = .buffer

/-- `call` is the call of `cmd`: its function and flags, and the words of its parameters. -/
def IsCallOf (g : CommandGeneration) (buf : List UInt8)
    (cmd : String × List ParamValue) (call : CommandParser × List UInt32) : Prop :=
  ∃ name funcname flags params, nameOf cmd.1 = some name
    ∧ Dict.get g.commands name = some (funcname, flags, name)
    ∧ lookupParams cmd.1 = some params
    ∧ call.1.func = some funcname ∧ call.1.flags = flags
    ∧ call.2.length = call.1.numArgs
    ∧ ArgsMatch buf (cmd.2.take params.length) call.2

/-- Number `0` is `identify_response`, whose data is not a plain parameter. -/
theorem Registered.number_ne_zero (hn : Numbered encid ids) (hplain : PlainCommands g)
    (hr : Registered g ids name funcname flags msg e) : e ≠ 0 := by
  rintro rfl
  obtain rfl := hn.inj hr.number hn.zero
  have hparams : lookupParams identifyResponse
      = some [("offset", .uint32), ("data", .progmemBuffer)] := by decide
  have h := hplain name (mem_keys_of_get hr.command) _ _ hr.message
    hparams ("data", .progmemBuffer) (by simp)
  exact absurd h (by decide)

theorem buildParser_eq_some {funcname : String}
    {cp : CommandParser} (h : buildParser e msg flags funcname = some cp) :
    ∃ params, lookupParams msg = some params
      ∧ cp = ⟨e, (params.map Prod.snd).length
            + (params.map Prod.snd).count .progmemBuffer
            + (params.map Prod.snd).count .buffer,
          flags, params.map Prod.snd, some funcname⟩ := by
  obtain ⟨params, hparams, h⟩ := bind_eq_some_iff.mp h
  exact ⟨params, hparams, (some.inj h).symm⟩

theorem commandLookupParser_of_getElem? {index : List CommandParser}
    {cp : CommandParser} (h : index[e]? = some cp) (he : e ≠ 0) :
    commandLookupParser index e = .ok cp := by
  have hlt : e < index.length := (List.getElem?_eq_some_iff.mp h).1
  rw [commandLookupParser, if_neg (by omega), getD_eq_getElem?_getD, h]
  rfl

/-- A build of the firmware and a host that has read its dictionary. -/
structure Session (g : CommandGeneration) (ids : List (String × Nat))
    (index : List CommandParser) (mp : MessageParser) : Prop where
  requests : ∃ reqs, handleRequests {} reqs = .ok g
  numbered : createMessageIds g = .ok ids
  few : ids.length < 16352
  table : generateCommandsCode g ids = some index
  host : ∃ data mp₀, updateDataDictionary g ids = some data
    ∧ MessageParser.processIdentify data mp₀ = some mp
  plain : PlainCommands g

section Session

variable {g : CommandGeneration} {ids : List (String × Nat)}
  {index : List CommandParser} {mp : MessageParser}

theorem Session.consistent (hs : Session g ids index mp) : g.Consistent := by
  obtain ⟨reqs, hreqs⟩ := hs.requests
  exact handleRequests_consistent consistent_init hreqs

/-- **ONE COMMAND**: the firmware reads its encoding as its call and stops right after it. -/
theorem readCommand_encode (hs : Session g ids index mp)
    {bytes : List UInt8} {msgend : Nat} (hend : msgend ≤ 64)
    {msgformat name : String} {values : List ParamValue} {mf : MessageFormat}
    (hname : nameOf msgformat = some name) (hmem : name ∈ keys g.commands)
    (hmf : mp.lookupCommand msgformat = .ok mf) (henc : mf.encode values = some bytes)
    (hdrop : buf.drop p = bytes ++ tail) (hp : p + bytes.length ≤ msgend) :
    0 < bytes.length ∧ ∃ cp args,
      readCommand index buf msgend p = .ok (cp, args, p + bytes.length)
        ∧ IsCallOf g buf (msgformat, values) (cp, args) := by
  obtain ⟨⟨encid, hn⟩, -⟩ := createMessageIds_spec hs.numbered
  obtain ⟨data, mp₀, hdata, hmp⟩ := hs.host
  obtain ⟨funcname, flags, msg, e, hr⟩ := registered_of_mem hs.consistent hs.numbered hmem
  obtain ⟨cp, hcp, hentry⟩ := generateCommandsCode_get hs.consistent hn hs.table hr
  obtain ⟨params, hparams, rfl⟩ := buildParser_eq_some hcp
  have hget := processIdentify_get hs.consistent hn hs.few hdata hmp hr hparams
  have he : e < 2 ^ 14 :=
    lt_trans (lt_trans (hn.lt (mem_of_get hr.number)) hs.few) (by decide : 16352 < 2 ^ 14)
  -- the host's format is the one the number was made for
  rw [MessageParser.lookupCommand, hname] at hmf
  simp only [hget] at hmf
  split at hmf
  · cases hmf
  rename_i hsame
  obtain rfl : msgformat = msg := not_ne_iff.mp hsame
  cases hmf
  obtain ⟨pb, hpb, rfl⟩ := map_eq_some_iff.mp henc
  rw [MessageFormat.paramTypes] at hpb
  rw [append_assoc] at hdrop
  rw [length_append] at hp ⊢
  have hid := commandParseMsgid_vlqBytes he hdrop
  have htypes : ∀ t ∈ params.map Prod.snd, t.isInt = true ∨ t = .buffer := by
    intro t ht
    obtain ⟨x, hx, rfl⟩ := mem_map.mp ht
    exact hs.plain name hmem _ _ hr.message hparams x hx
  obtain ⟨args, hargs, hmatch⟩ := commandParsef_encodeParams hend hpb htypes
    (drop_add_of_drop hdrop) (by omega)
  rw [length_map] at hmatch
  have hlookup := commandLookupParser_of_getElem? hentry (hr.number_ne_zero hn hs.plain)
  have hpos : 0 < (vlqBytes (msgidExtra e) e).length + pb.length := by
    rw [vlqBytes_length]
    omega
  have hread := readCommand_eq hid hlookup hargs
  rw [← add_assoc]
  refine ⟨hpos, _, args, hread, ?_⟩
  exact ⟨name, funcname, flags, params, hname, hr.command, hparams, rfl, rfl,
    commandParsef_length hargs, hmatch⟩

/-- The `command_dispatch` loop over the encodings of a list of commands.  The
    induction is on the list; `n` bounds the rounds that are left. -/
theorem dispatchLoop_encodeCommands (hs : Session g ids index mp) {σ : Type}
    (fw : Firmware σ) {msgend : Nat} (hend : msgend ≤ 64) {cmds : List (String × List ParamValue)}
    (hcmds : ∀ c ∈ cmds, ∃ name, nameOf c.1 = some name
      ∧ name ∈ keys g.commands)
    {payload : List UInt8} {n : Nat} (henc : encodeCommands mp cmds = some payload)
    (hdrop : buf.drop p = payload ++ tail)
    (hp : p + payload.length = msgend) (hfuel : payload.length ≤ n) :
    ∃ calls, List.Forall₂ (IsCallOf g buf) cmds calls
      ∧ dispatchLoop fw index buf msgend n p = runCalls fw buf calls := by
  induction cmds generalizing payload p n with
  | nil =>
    obtain rfl : [] = payload := some.inj henc
    refine ⟨[], .nil, funext fun s => ?_⟩
    have hstop : ¬p < msgend := by
      rw [length_nil] at hp
      omega
    cases n with
    | zero | succ n => rw [dispatchLoop, if_neg hstop, runCalls]
  | cons cmd cmds ih =>
    obtain ⟨msgformat, values⟩ := cmd
    obtain ⟨name, hname, hmem⟩ := hcmds _ (mem_cons_self ..)
    rw [encodeCommands] at henc
    split at henc
    · cases henc
    rename_i mf hmf
    obtain ⟨a, ha, henc⟩ := bind_eq_some_iff.mp henc
    obtain ⟨b, hb, henc⟩ := bind_eq_some_iff.mp henc
    cases henc
    rw [append_assoc] at hdrop
    rw [length_append] at hp hfuel
    obtain ⟨hpos, cp, args, hread, hcall⟩ := readCommand_encode hs hend hname
      hmem hmf ha hdrop (by omega)
    cases n with
    | zero => omega
    | succ n =>
      obtain ⟨calls, hcalls, hrun⟩ :=
        ih (fun c hc => hcmds c (mem_cons_of_mem _ hc)) hb
          (drop_add_of_drop hdrop) (by omega) (show b.length ≤ n by omega)
      refine ⟨(cp, args) :: calls, .cons hcall hcalls, funext fun s => ?_⟩
      rw [dispatchLoop, if_pos (by omega), hread, runCalls, ← hrun]

end Session

/-- With no shutdown and handlers that return, exactly the listed calls are made. -/
theorem runCalls_trace {σ : Type} (fw : Firmware σ) (buf : List UInt8)
    (hrun : ∀ s, fw.schedIsShutdown s = false)
    (hret : ∀ call s, ∃ s', fw.handler call buf s = .ok s') {cmds : List (String × List ParamValue)}
    {calls : List (CommandParser × List UInt32)}
    (hcalls : List.Forall₂ (IsCallOf g buf) cmds calls) (s : σ) :
    (runCalls fw buf calls s).1.map (fun c => (some c.func, c.args))
        = calls.map (fun c => (c.1.func, c.2))
      ∧ ∃ s', (runCalls fw buf calls s).2 = .ok s' := by
  induction hcalls generalizing s with
  | nil => exact ⟨rfl, s, rfl⟩
  | @cons cmd call cmds calls hcall _ ih =>
    obtain ⟨cp, args⟩ := call
    obtain ⟨_, f, _, _, -, -, -, hf, -⟩ := hcall
    obtain ⟨s', hs'⟩ := hret ⟨f, args⟩ s
    obtain ⟨htrace, hok⟩ := ih s'
    have hstep : runCalls fw buf ((cp, args) :: calls) s
        = (⟨f, args⟩ :: (runCalls fw buf calls s').1, (runCalls fw buf calls s').2) := by
      rw [runCalls, callHandler, if_neg (by rw [hrun s]; simp), hf]
      simp only [hs']
    rw [hstep]
    exact ⟨by rw [map_cons, htrace, map_cons, hf], hok⟩

/-- **HOST TO FIRMWARE**: `command_dispatch` on the framed block of a list of commands makes
    their calls, in order, and nothing else, as long as it is not shut down and the handlers
    return (`runCalls`). -/
theorem commandDispatch_encodeCommands {g : CommandGeneration}
    {ids : List (String × Nat)} {index : List CommandParser}
    {mp : MessageParser} (hs : Session g ids index mp) {σ : Type}
    (fw : Firmware σ) (cmds : List (String × List ParamValue))
    (hcmds : ∀ c ∈ cmds, ∃ name, nameOf c.1 = some name
      ∧ name ∈ keys g.commands)
    (payload : List UInt8) (henc : encodeCommands mp cmds = some payload)
    (hlen : payload.length ≤ messagePayloadMax) (seq : UInt8) (rest : List UInt8) (s : σ) :
    let buf := addFrame seq payload ++ rest
    ∃ calls, List.Forall₂ (IsCallOf g buf) cmds calls
      ∧ commandDispatch fw index buf (addFrame seq payload).length s = runCalls fw buf calls s
      ∧ ((∀ s, fw.schedIsShutdown s = false) → (∀ call s, ∃ s', fw.handler call buf s = .ok s') →
          (commandDispatch fw index buf (addFrame seq payload).length s).1.map
              (fun c => (some c.func, c.args))
            = calls.map (fun c => (c.1.func, c.2))
          ∧ ∃ s', (commandDispatch fw index buf (addFrame seq payload).length s).2 = .ok s') := by
  intro buf
  have hmax : payload.length ≤ 59 := hlen
  obtain ⟨tail, hdrop⟩ := addFrame_drop_two seq payload rest
  obtain ⟨calls, hcalls, hloop⟩ := dispatchLoop_encodeCommands hs fw
    (show payload.length + 2 ≤ 64 by omega) hcmds henc hdrop (by omega)
    (Nat.le_add_right payload.length 5)
  have hrun : commandDispatch fw index buf (addFrame seq payload).length
      = runCalls fw buf calls := by
    funext s
    rw [← hloop, commandDispatch, addFrame_length]
    rfl
  refine ⟨calls, hcalls, by rw [hrun], fun hnot hret => ?_⟩
  rw [hrun]
  exact runCalls_trace fw buf hnot hret hcalls s

/-- One command with one parameter of each kind. -/
def sampleGeneration : CommandGeneration where
  commands := [("send", ("command_send", 0, "send"))]
  messagesByName :=
    [("identify_response", "identify_response offset=%u data=%.*s"),
     ("identify", "identify offset=%u count=%c"),
     ("send", "send pos=%i data=%*s")]

/-- The formats the host learns for `sampleGeneration`. -/
def sampleParser : MessageParser where
  messagesByName :=
    [("send", ⟨[2], "send pos=%i data=%*s", "send", [("pos", .int32), ("data", .buffer)]⟩),
     ("identify_response", ⟨[0], "identify_response offset=%u data=%.*s",
        "identify_response", [("offset", .uint32), ("data", .progmemBuffer)]⟩),
     ("identify", ⟨[1], "identify offset=%u count=%c", "identify",
        [("offset", .uint32), ("count", .byte)]⟩)]

theorem sampleSession : Session sampleGeneration (defaultMessages ++ [("send pos=%i data=%*s", 2)])
    [{}, {}, ⟨2, 3, 0, [.int32, .buffer], some "command_send"⟩] sampleParser where
  requests := ⟨[.declCommandFlags "command_send" 0 "send pos=%i data=%*s"], by decide⟩
  numbered := by decide
  few := by decide
  table := by decide
  host := ⟨⟨[("send pos=%i data=%*s", 2)],
    [("identify_response offset=%u data=%.*s", 0),
      ("identify offset=%u count=%c", 1)], []⟩, {}, by decide, by decide⟩
  plain := by
    intro name hname msg params hmsg hparams
    obtain rfl := mem_singleton.mp hname
    obtain rfl : "send pos=%i data=%*s" = msg := some.inj hmsg
    obtain rfl : [("pos", ParamType.int32), ("data", .buffer)] = params :=
      some.inj (Eq.trans (by decide) hparams)
    decide

/-- Two commands in one block reach a firmware whose handlers return. -/
theorem commandDispatch_two_commands :
    ∃ calls, List.Forall₂
        (IsCallOf sampleGeneration (addFrame 0x13 [2, 0x7f, 2, 10, 20, 2, 0x83, 0x74, 0]))
        [("send pos=%i data=%*s", [.int (-1), .bytes [10, 20]]),
         ("send pos=%i data=%*s", [.int 500, .bytes []])] calls
      ∧ (commandDispatch (⟨fun _ => false, id, fun _ _ s => .ok s⟩ : Firmware Unit)
          [{}, {}, ⟨2, 3, 0, [.int32, .buffer], some "command_send"⟩]
          (addFrame 0x13 [2, 0x7f, 2, 10, 20, 2, 0x83, 0x74, 0]) 14 ()).1.map
          (fun c => (some c.func, c.args))
        = calls.map (fun c => (c.1.func, c.2)) := by
  obtain ⟨calls, hcalls, -, htrace⟩ := commandDispatch_encodeCommands
    sampleSession (⟨fun _ => false, id, fun _ _ s => .ok s⟩ : Firmware Unit)
    [("send pos=%i data=%*s", [.int (-1), .bytes [10, 20]]),
      ("send pos=%i data=%*s", [.int 500, .bytes []])]
    (by
      intro c hc
      refine ⟨"send", ?_, by decide⟩
      rcases mem_cons.mp hc with rfl | hc
      · decide
      · obtain rfl := mem_singleton.mp hc
        decide)
    [2, 0x7f, 2, 10, 20, 2, 0x83, 0x74, 0] (by decide) (by decide) 0x13 [] ()
  rw [append_nil] at hcalls htrace
  exact ⟨calls, hcalls, (htrace (fun _ => rfl) fun _ _ => ⟨(), rfl⟩).1⟩

end Buildcommands
