import Pick.BuildcommandsProofs
import Pick.FramingProofs

/-! # What the dispatch of a block touches (`src/command.c`)

`command_dispatch` walks over a block that `command_find_block` has accepted. The
bytes of an integer are read until one has no top bit, and nothing but the contents
of the block stops this: behind the payload are the two bytes of the CRC, which may
have theirs set, and the SYNC, which has not.

The parser fails at a byte that is not there.  So it stays inside the block if it
does with the bytes of the block alone what it does with the whole buffer, and does
not fail. -/

namespace Command

open List Msgproto Option

/-! ## Integers -/

/-- How many bytes an integer takes: up to the first without its top bit. -/
def intLength : List UInt8 → Option Nat
  | [] => none
  | c :: rest => if c &&& 0x80 = 0 then some 1 else (intLength rest).map (· + 1)

theorem parseIntLoop_rest (v : UInt32) (c : UInt8) (s : List UInt8) :
    (parseIntLoop v c s).map Prod.snd
      = if c &&& 0x80 = 0 then some s else (intLength s).map (s.drop ·) := by
  fun_induction parseIntLoop v c s with
  | case1 v c hc | case3 v c d rest hc => rw [if_pos hc]; rfl
  | case2 v c hc => rw [if_neg hc]; rfl
  | case4 v c d rest hc ih =>
    rw [if_neg hc, ih, intLength]
    split
    · rfl
    · rw [Option.map_map]
      rfl

/-- `parse_int` stops behind the integer. -/
theorem parseInt_rest (s : List UInt8) :
    (parseInt s).map Prod.snd = (intLength s).map (s.drop ·) := by
  cases s with
  | nil => rfl
  | cons c rest =>
    rw [parseInt, intLength, parseIntLoop_rest]
    split
    · rfl
    · rw [Option.map_map]
      rfl

variable {s : List UInt8} {n : Nat}

theorem intLength_bounds (h : intLength s = some n) : 0 < n ∧ n ≤ s.length := by
  fun_induction intLength s generalizing n with
  | case1 => cases h
  | case2 c rest hc =>
    cases h
    exact ⟨Nat.one_pos, Nat.succ_le_succ (Nat.zero_le _)⟩
  | case3 c rest hc ih =>
    obtain ⟨m, hm, rfl⟩ := map_eq_some_iff.mp h
    exact ⟨m.succ_pos, Nat.succ_le_succ (ih hm).2⟩

/-- A byte without its top bit ends an integer that has come so far. -/
theorem intLength_le {k : Nat} (hk : k < s.length)
    (hlast : s.getD k 0 &&& 0x80 = 0) : ∃ n ≤ k + 1, intLength s = some n := by
  fun_induction intLength s generalizing k with
  | case1 => exact absurd hk (Nat.not_lt_zero k)
  | case2 c rest hc => exact ⟨1, by omega, rfl⟩
  | case3 c rest hc ih =>
    cases k with
    | zero => exact absurd hlast hc
    | succ k =>
      obtain ⟨n, hn, hlen⟩ := ih (Nat.lt_of_succ_lt_succ hk) hlast
      exact ⟨n + 1, by omega, by rw [hlen]; rfl⟩

variable {p : Nat}

/-- What `parse_int` does at a place of the buffer. -/
theorem parseInt_at {buf rest : List UInt8} {v : UInt32}
    (h : parseInt (buf.drop p) = some (v, rest)) :
    ∃ n, intLength (buf.drop p) = some n ∧ buf.length - rest.length = p + n := by
  have hrest := parseInt_rest (buf.drop p)
  rw [h, map_some] at hrest
  obtain ⟨n, hn, heq⟩ := map_eq_some_iff.mp hrest.symm
  obtain ⟨hpos, hle⟩ := intLength_bounds hn
  obtain rfl : (buf.drop p).drop n = rest := heq
  refine ⟨n, hn, ?_⟩
  rw [length_drop, length_drop]
  rw [length_drop] at hle
  omega

variable {index : List CommandParser} {buf : List UInt8} {msgend fuel p : Nat}

theorem parseInt_of_intLength (h : intLength (buf.drop p) = some n) :
    ∃ v rest, parseInt (buf.drop p) = some (v, rest) ∧ buf.length - rest.length = p + n := by
  have hrest := parseInt_rest (buf.drop p)
  rw [h, map_some] at hrest
  obtain ⟨⟨v, rest⟩, hparse, -⟩ := map_eq_some_iff.mp hrest
  obtain ⟨n', hn', hlen⟩ := parseInt_at hparse
  obtain rfl : n = n' := some.inj (h.symm.trans hn')
  exact ⟨v, rest, hparse, hlen⟩

/-- What comes behind an integer does not matter to it. -/
theorem parseInt_append {rest : List UInt8} {v : UInt32} (x : List UInt8)
    (h : parseInt s = some (v, rest)) : parseInt (s ++ x) = some (v, rest ++ x) := by
  have hloop : ∀ (w : UInt32) (c : UInt8) (s : List UInt8), parseIntLoop w c s = some (v, rest) →
      parseIntLoop w c (s ++ x) = some (v, rest ++ x) := by
    intro w c s hs
    fun_induction parseIntLoop w c s with
    | case1 w c hc =>
      cases hs
      cases x with
      | nil | cons d x => exact if_pos hc
    | case2 => cases hs
    | case3 w c d tail hc =>
      cases hs
      exact if_pos hc
    | case4 w c d tail hc ih => exact (if_neg hc).trans (ih hs)
  cases s with
  | nil => cases h
  | cons c s => exact hloop _ _ _ h

/-! ## The rounds of a walk -/

variable {σ : Type}

/-- The start of a round: the place of the command and the state of the firmware. -/
structure Round (σ : Type) where
  start : Nat
  state : σ
  deriving DecidableEq

/-- The state after a command that was read, unless this was the last. -/
def afterCall (fw : Firmware σ) (buf : List UInt8) (cp : CommandParser)
    (args : List UInt32) (s : σ) : Option σ :=
  if fw.schedIsShutdown s = true ∧ cp.flags &&& hfInShutdown = 0 then
    some (fw.schedReportShutdown s)
  else cp.func.bind fun f => (fw.handler ⟨f, args⟩ buf s).toOption

/-- The rounds of `command_dispatch` from a place on, or `none` if `fuel` of them are not enough. -/
def rounds (fw : Firmware σ) (index : List CommandParser) (buf : List UInt8)
    (msgend : Nat) : Nat → Nat → σ → Option (List (Round σ))
  | 0, p, _ => if p < msgend then none else some []
  | fuel + 1, p, s =>
    if p < msgend then
      match readCommand index buf msgend p with
      | .error _ => some [⟨p, s⟩]
      | .ok (cp, args, q) =>
        match afterCall fw buf cp args s with
        | none => some [⟨p, s⟩]
        | some s' => (rounds fw index buf msgend fuel q s').map (⟨p, s⟩ :: ·)
    else some []

/-- The call that is made in a round. -/
def Round.call (fw : Firmware σ) (index : List CommandParser) (buf : List UInt8)
    (msgend : Nat) (r : Round σ) : Option Call :=
  match readCommand index buf msgend r.start with
  | .error _ => none
  | .ok (cp, args, _) =>
    if fw.schedIsShutdown r.state = true ∧ cp.flags &&& hfInShutdown = 0 then none
    else cp.func.map (⟨·, args⟩)

/-- How the walk ends in a round, if it does. -/
def Round.stop (fw : Firmware σ) (index : List CommandParser) (buf : List UInt8)
    (msgend : Nat) (r : Round σ) : Option Stop :=
  match readCommand index buf msgend r.start with
  | .error e => some e
  | .ok (cp, args, _) =>
    if fw.schedIsShutdown r.state = true ∧ cp.flags &&& hfInShutdown = 0 then none
    else
      match cp.func with
      | none => some .fault
      | some f =>
        match fw.handler ⟨f, args⟩ buf r.state with
        | .error reason => some (.shutdown reason)
        | .ok _ => none

variable {fw : Firmware σ} {rs : List (Round σ)}

/-- **A ROUND OF THE WALK** makes its call, and then ends the walk or leaves the rest
    of the rounds to it. -/
theorem rounds_step {s : σ} (hp : p < msgend)
    (h : rounds fw index buf msgend (fuel + 1) p s = some rs) :
    (∃ e, Round.stop fw index buf msgend ⟨p, s⟩ = some e ∧ rs = [⟨p, s⟩] ∧
      dispatchLoop fw index buf msgend (fuel + 1) p s =
        ((Round.call fw index buf msgend ⟨p, s⟩).toList, .error e)) ∨
    ∃ q s' rest, Round.stop fw index buf msgend ⟨p, s⟩ = none ∧
      rounds fw index buf msgend fuel q s' = some rest ∧ rs = ⟨p, s⟩ :: rest ∧
      dispatchLoop fw index buf msgend (fuel + 1) p s =
        ((Round.call fw index buf msgend ⟨p, s⟩).toList ++
            (dispatchLoop fw index buf msgend fuel q s').1,
          (dispatchLoop fw index buf msgend fuel q s').2) := by
  rw [rounds, if_pos hp] at h
  rw [dispatchLoop, if_pos hp, Round.stop, Round.call]
  dsimp only
  cases hread : readCommand index buf msgend p with
  | error e =>
    rw [hread] at h
    exact .inl ⟨e, rfl, (some.inj h).symm, rfl⟩
  | ok r =>
    obtain ⟨cp, args, q⟩ := r
    rw [hread] at h
    dsimp only at h ⊢
    rw [callHandler]
    rw [afterCall] at h
    by_cases hskip : fw.schedIsShutdown s = true ∧ cp.flags &&& hfInShutdown = 0
    · rw [if_pos hskip] at h
      rw [if_pos hskip, if_pos hskip, if_pos hskip]
      obtain ⟨rest, hrest, heq⟩ := map_eq_some_iff.mp h
      exact .inr ⟨q, _, rest, rfl, hrest, heq.symm, rfl⟩
    · rw [if_neg hskip] at h
      rw [if_neg hskip, if_neg hskip, if_neg hskip]
      cases hf : cp.func with
      | none =>
        rw [hf] at h
        exact .inl ⟨_, rfl, (some.inj h).symm, rfl⟩
      | some f =>
        rw [hf, bind_some] at h
        dsimp only
        cases hrun : fw.handler ⟨f, args⟩ buf s with
        | error reason =>
          rw [hrun] at h
          exact .inl ⟨_, rfl, (some.inj h).symm, rfl⟩
        | ok s' =>
          rw [hrun] at h
          obtain ⟨rest, hrest, heq⟩ := map_eq_some_iff.mp h
          exact .inr ⟨q, s', rest, rfl, hrest, heq.symm, rfl⟩

/-- Behind the payload there is no round. -/
theorem rounds_behind {s : σ}
    (hp : ¬ p < msgend) (h : rounds fw index buf msgend fuel p s = some rs) :
    rs = [] ∧ dispatchLoop fw index buf msgend fuel p s = ([], .ok s) := by
  cases fuel with
  | zero | succ fuel =>
    rw [rounds, if_neg hp] at h
    rw [dispatchLoop, if_neg hp]
    exact ⟨(some.inj h).symm, rfl⟩

/-- **THE ROUNDS ARE THOSE OF THE WALK**: their calls are its calls, and the walk ends as its
    last round. -/
theorem dispatchLoop_rounds {s : σ} (h : rounds fw index buf msgend fuel p s = some rs) :
    (dispatchLoop fw index buf msgend fuel p s).1 =
        rs.filterMap (Round.call fw index buf msgend) ∧
      ∀ r ∈ rs, ∀ e, r.stop fw index buf msgend = some e →
        (dispatchLoop fw index buf msgend fuel p s).2 = .error e := by
  induction fuel generalizing p s rs with
  | zero =>
    by_cases hp : p < msgend
    · rw [rounds, if_pos hp] at h
      cases h
    · obtain ⟨rfl, hrun⟩ := rounds_behind hp h
      rw [hrun]
      exact ⟨rfl, nofun⟩
  | succ fuel ih =>
    by_cases hp : p < msgend
    · rcases rounds_step hp h with ⟨e, hstop, rfl, hrun⟩ | ⟨q, s', rest, hstop, hrest, rfl, hrun⟩
      · rw [hrun]
        refine ⟨?_, forall_mem_singleton.mpr fun e' he' => ?_⟩
        · rw [filterMap_cons]
          cases Round.call fw index buf msgend ⟨p, s⟩ with
          | none => rfl
          | some c => rfl
        · obtain rfl : e = e' := some.inj (hstop.symm.trans he')
          rfl
      · obtain ⟨hcalls, hends⟩ := ih hrest
        rw [hrun]
        refine ⟨?_, fun r hr e he => ?_⟩
        · rw [filterMap_cons, hcalls]
          cases Round.call fw index buf msgend ⟨p, s⟩ with
          | none => rfl
          | some c => rfl
        · rcases mem_cons.mp hr with rfl | hr
          · rw [hstop] at he
            cases he
          · exact hends r hr e he
    · obtain ⟨rfl, hrun⟩ := rounds_behind hp h
      rw [hrun]
      exact ⟨rfl, nofun⟩

/-! ## Every round moves on -/

theorem commandParseMsgid_bounds {p' cmdid : Nat}
    (h : commandParseMsgid buf p = some (cmdid, p')) : p < p' ∧ p' ≤ p + 2 := by
  rw [commandParseMsgid] at h
  split at h
  · cases h
  · split at h
    · cases h
      omega
    · split at h
      · cases h
      · cases h
        omega

variable {q : Nat} {args : List UInt32}

theorem commandParsef_le {maxend : Nat} {types : List ParamType}
    (h : commandParsef buf maxend types p = .ok (args, q)) : p ≤ q := by
  fun_induction commandParsef buf maxend types p generalizing q args with
  | case1 =>
    cases h
    exact le_refl _
  | case2 | case3 | case5 | case6 | case8 => cases h
  | case4 t types p hp hint v rest hparse ih =>
    obtain ⟨n, -, hend⟩ := parseInt_at hparse
    obtain ⟨r, hrec, h⟩ := Result.bind_eq_ok h
    cases h
    have hle := ih hrec
    omega
  | case7 types p hp len rest hdrop hfits hint ih =>
    obtain ⟨r, hrec, h⟩ := Result.bind_eq_ok h
    cases h
    have hle := ih hrec
    omega

variable {cp : CommandParser}

/-- What a command that is read consists of. -/
theorem readCommand_ok {msgend : Nat} (h : readCommand index buf msgend p = .ok (cp, args, q)) :
    ∃ cmdid p', commandParseMsgid buf p = some (cmdid, p') ∧
      commandLookupParser index cmdid = .ok cp ∧
      commandParsef buf msgend cp.paramTypes p' = .ok (args, q) := by
  rw [readCommand] at h
  split at h
  · cases h
  · rename_i cmdid p' hid
    obtain ⟨cp', hcp, h⟩ := Result.bind_eq_ok h
    obtain ⟨⟨args', q'⟩, hargs, h⟩ := Result.bind_eq_ok h
    obtain ⟨rfl, hpair⟩ := Prod.mk.inj (Except.ok.inj h)
    cases hpair
    exact ⟨cmdid, p', hid, hcp, hargs⟩

theorem readCommand_lt {msgend : Nat}
    (h : readCommand index buf msgend p = .ok (cp, args, q)) : p < q := by
  obtain ⟨cmdid, p', hid, -, hargs⟩ := readCommand_ok h
  exact lt_of_lt_of_le (commandParseMsgid_bounds hid).1 (commandParsef_le hargs)

/-- **THE LOOP ENDS**: as many rounds as there are bytes are enough. -/
theorem rounds_end (fw : Firmware σ) (index : List CommandParser) (buf : List UInt8)
    (s : σ) (hfuel : msgend ≤ p + fuel) :
    ∃ rs, rounds fw index buf msgend fuel p s = some rs ∧
      ∀ r ∈ rs, p ≤ r.start ∧ r.start < msgend := by
  fun_induction rounds fw index buf msgend fuel p s with
  | case1 p s hp => omega
  | case2 | case6 => exact ⟨[], rfl, nofun⟩
  | case3 fuel p s hp e hread => exact ⟨_, rfl, forall_mem_singleton.mpr ⟨le_refl _, hp⟩⟩
  | case4 fuel p s hp cp args q hread hcall =>
    exact ⟨_, rfl, forall_mem_singleton.mpr ⟨le_refl _, hp⟩⟩
  | case5 fuel p s hp cp args q hread s' hcall ih =>
    have hlt := readCommand_lt hread
    obtain ⟨rs, hrs, hstarts⟩ := ih (by omega)
    rw [hrs]
    refine ⟨⟨p, s⟩ :: rs, rfl, forall_mem_cons.mpr ⟨⟨le_refl _, hp⟩, fun r hr => ?_⟩⟩
    exact ⟨hlt.le.trans (hstarts r hr).1, (hstarts r hr).2⟩

/-! ## No read beyond the block -/

/-- The command at `p` is read from the first `msglen` bytes alone, and none is missing.
    The words written for it, up to an error if there is one, have room in `args`. -/
structure StaysInside (index : List CommandParser) (buf : List UInt8) (msglen p : Nat) : Prop where
  same : readCommand index (buf.take msglen) (msglen - 3) p = readCommand index buf (msglen - 3) p
  reads : readCommand index (buf.take msglen) (msglen - 3) p ≠ .error .fault
  writes : ∀ cmdid p' cp, commandParseMsgid buf p = some (cmdid, p') →
    commandLookupParser index cmdid = .ok cp → ∀ types args q, types <+: cp.paramTypes →
      commandParsef buf (msglen - 3) types p' = .ok (args, q) → args.length ≤ cp.numArgs

/-- An id that is not in the table is refused. -/
theorem commandLookupParser_error {cmdid : Nat} {e : Stop}
    (h : commandLookupParser index cmdid = .error e) : e = .shutdown "Invalid command" := by
  rw [commandLookupParser] at h
  split at h
  · exact (Except.error.inj h).symm
  · cases h

/-- The words that the parameters need at most. -/
def wordsOf (types : List ParamType) : Nat :=
  types.length + types.count .progmemBuffer + types.count .buffer

theorem shutdown_ne_fault {α : Type} (reason : String) :
    (.error (.shutdown reason) : Except Stop α) ≠ .error .fault := by
  intro h
  cases h

/-- What is made of a result is a fault only if the result is one. -/
theorem bind_ne_fault {α β : Type} {r : Except Stop α} (h : r ≠ .error .fault) (f : α → β) :
    (r >>= fun a => .ok (f a)) ≠ .error .fault := by
  intro hfault
  cases r with
  | error e => exact h (congrArg _ (Except.error.inj hfault))
  | ok a => cases hfault

section Fence

variable {buf : List UInt8} {msgend : Nat} (hlong : msgend + 2 < buf.length)
  (hfence : buf.getD (msgend + 2) 0 &&& 0x80 = 0)
include hlong hfence

/-- The SYNC ends every integer. -/
theorem intLength_fence (hp : p ≤ msgend + 2) :
    ∃ n, intLength (buf.drop p) = some n ∧ p + n ≤ msgend + 3 := by
  have hlast : (buf.drop p).getD (msgend + 2 - p) 0 &&& 0x80 = 0 := by
    rw [getD_eq_getElem?_getD, getElem?_drop, Nat.add_sub_cancel' hp, ← getD_eq_getElem?_getD]
    exact hfence
  obtain ⟨n, hn, hlen⟩ := intLength_le (by rw [length_drop]; omega) hlast
  exact ⟨n, hlen, by omega⟩

/-- **PARAMETERS** are read from the block. -/
theorem commandParsef_fence (x : List UInt8) (types : List ParamType) (p : Nat) :
    commandParsef (buf ++ x) msgend types p = commandParsef buf msgend types p ∧
      commandParsef buf msgend types p ≠ .error .fault := by
  induction types generalizing p with
  | nil =>
    refine ⟨rfl, fun h => ?_⟩
    cases h
  | cons t types ih =>
    rw [commandParsef, commandParsef]
    split
    · exact ⟨rfl, shutdown_ne_fault _⟩
    rename_i hp
    rw [drop_append_of_le_length (by omega)]
    split
    · obtain ⟨n, hn, -⟩ := intLength_fence hlong hfence (show p ≤ msgend + 2 by omega)
      obtain ⟨v, rest, hparse, -⟩ := parseInt_of_intLength hn
      rw [hparse, parseInt_append x hparse]
      dsimp only
      rw [length_append, length_append, Nat.add_sub_add_right, (ih _).1]
      exact ⟨rfl, bind_ne_fault (ih _).2 fun a => (v :: a.1, a.2)⟩
    split
    · cases hdrop : buf.drop p with
      | nil =>
        have hlen := drop_eq_nil_iff.mp hdrop
        omega
      | cons len rest =>
        dsimp only [cons_append]
        split
        · exact ⟨rfl, shutdown_ne_fault _⟩
        · rw [(ih _).1]
          exact ⟨rfl, bind_ne_fault (ih _).2
            fun a => (len.toUInt32 :: UInt32.ofNat (p + 1) :: a.1, a.2)⟩
    · exact ⟨rfl, shutdown_ne_fault _⟩

/-- So is a whole command. -/
theorem readCommand_fence (x : List UInt8) (hp : p < msgend) :
    readCommand index (buf ++ x) msgend p = readCommand index buf msgend p ∧
      readCommand index buf msgend p ≠ .error .fault := by
  obtain ⟨id, hid, hid'⟩ : ∃ id, commandParseMsgid (buf ++ x) p = some id ∧
      commandParseMsgid buf p = some id := by
    rw [commandParseMsgid, commandParseMsgid, drop_append_of_le_length (by omega)]
    rw [drop_eq_getElem_cons (show p < buf.length by omega),
      drop_eq_getElem_cons (show p + 1 < buf.length by omega)]
    dsimp only [cons_append]
    split
    · exact ⟨_, rfl, rfl⟩
    · exact ⟨_, rfl, rfl⟩
  rw [readCommand, readCommand, hid, hid']
  dsimp only
  cases hcp : commandLookupParser index id.1 with
  | error e =>
    obtain rfl := commandLookupParser_error hcp
    exact ⟨rfl, shutdown_ne_fault _⟩
  | ok cp =>
    obtain ⟨hsame, hne⟩ := commandParsef_fence hlong hfence x cp.paramTypes id.2
    refine ⟨?_, bind_ne_fault hne fun a => (cp, a.1, a.2)⟩
    show (commandParsef (buf ++ x) msgend cp.paramTypes id.2 >>= _) = _
    rw [hsame]
    rfl

end Fence

/-! ## Every block and every table -/

open Buildcommands Msgblock

/-- A command table whose entries are made by `build_parser`, or empty. -/
def BuiltTable (index : List CommandParser) : Prop :=
  ∀ cp ∈ index, cp = {} ∨ ∃ encodedMsgid msgformat flags funcname,
    buildParser encodedMsgid msgformat flags funcname = some cp

theorem generateCommandsCode_builtTable {g : CommandGeneration}
    {ids : List (String × Nat)} (h : generateCommandsCode g ids = some index) :
    BuiltTable index := by
  obtain ⟨byEncid, -, h⟩ := bind_eq_some_iff.mp h
  obtain ⟨maxCmdEncid, -, h⟩ := bind_eq_some_iff.mp h
  intro cp hcp
  obtain ⟨e, -, hentry⟩ := (Dict.mem_mapM_iff h).mp hcp
  rw [indexEntry] at hentry
  split at hentry
  · exact .inl (some.inj hentry).symm
  · obtain ⟨msg, -, hbuilt⟩ := bind_eq_some_iff.mp hentry
    exact .inr ⟨_, _, _, _, hbuilt⟩

/-- `num_args` counts the words of the parameters. -/
theorem BuiltTable.room (h : BuiltTable index) {cmdid : Nat}
    (hcp : commandLookupParser index cmdid = .ok cp) : wordsOf cp.paramTypes ≤ cp.numArgs := by
  rw [commandLookupParser] at hcp
  split at hcp
  · cases hcp
  rename_i hvalid
  rw [not_or, not_le] at hvalid
  rw [getD_eq_getElem _ _ hvalid.2] at hcp
  cases hcp
  rcases h _ (getElem_mem hvalid.2) with hnone | ⟨e, msg, flags, funcname, hbuilt⟩
  · rw [hnone]
    exact le_refl _
  · obtain ⟨params, -, heq⟩ := bind_eq_some_iff.mp hbuilt
    rw [← some.inj heq]
    exact le_refl _

/-- Some of the parameters need no more words than all. -/
theorem wordsOf_le {types types' : List ParamType} (h : types <+: types') :
    wordsOf types ≤ wordsOf types' :=
  Nat.add_le_add (Nat.add_le_add h.length_le (h.sublist.count_le _)) (h.sublist.count_le _)

/-- **DISPATCH STAYS INSIDE THE BLOCK**: the walk over a block that `command_find_block` accepts
    ends, reads bytes of the block only, and writes at most `num_args` words for a command. -/
theorem dispatch_inside_block {index : List CommandParser} (hindex : BuiltTable index)
    {buf : List UInt8} {msglen : Nat} (hblock : scanBlock buf = .block msglen)
    (fw : Firmware σ) (s : σ) :
    ∃ rs, rounds fw index buf (msglen - 3) msglen 2 s = some rs ∧
      (commandDispatch fw index buf msglen s).1 =
        rs.filterMap (Round.call fw index buf (msglen - 3)) ∧
      ∀ r ∈ rs, StaysInside index buf msglen r.start := by
  obtain ⟨hmin, hle, hsync⟩ := scanBlock_block hblock
  have hfive : 5 ≤ msglen := hmin
  obtain ⟨rs, hrs, hstarts⟩ := rounds_end fw index buf s (show msglen - 3 ≤ 2 + msglen by omega)
  refine ⟨rs, hrs, (dispatchLoop_rounds hrs).1, fun r hr => ?_⟩
  have hlen : (buf.take msglen).length = msglen := length_take_of_le hle
  have hfence : (buf.take msglen).getD (msglen - 3 + 2) 0 &&& 0x80 = 0 := by
    rw [getD_eq_getElem?_getD, getElem?_take_of_lt (by omega),
      ← getD_eq_getElem?_getD, show msglen - 3 + 2 = msglen - 1 by omega, hsync]
    rfl
  have hread := @readCommand_fence index r.start _ (msglen - 3) (by omega) hfence
    (buf.drop msglen) (hstarts r hr).2
  rw [take_append_drop] at hread
  refine ⟨hread.1.symm, hread.2, fun cmdid p' cp _ hcp types args q hpre hargs => ?_⟩
  rw [commandParsef_length hargs]
  exact (wordsOf_le hpre).trans (hindex.room hcp)

/-- Firmware that runs and whose handlers do nothing. -/
def plainFirmware : Firmware Unit := ⟨fun _ => false, id, fun _ _ _ => .ok ()⟩

/-- The id of a command with a buffer, all else cut off: its integer is read from the
    CRC, and then it is refused. -/
theorem dispatch_inside_cut_block :
    BuiltTable [{}, {}, ⟨2, 3, 0, [.int32, .buffer], some "command_send"⟩] ∧
      commandParsef (addFrame 0x10 [0x02]) 3 [.int32] 3 = .ok ([89], 4) ∧
      ∃ rs, rounds plainFirmware [{}, {}, ⟨2, 3, 0, [.int32, .buffer], some "command_send"⟩]
          (addFrame 0x10 [0x02]) 3 6 2 () = some rs ∧
        ∀ r ∈ rs, StaysInside [{}, {}, ⟨2, 3, 0, [.int32, .buffer], some "command_send"⟩]
          (addFrame 0x10 [0x02]) 6 r.start := by
  have hindex := generateCommandsCode_builtTable sampleSession.table
  obtain ⟨rs, hrs, -, hinside⟩ := dispatch_inside_block hindex
    (show scanBlock (addFrame 0x10 [0x02]) = .block 6 by decide +kernel)
    plainFirmware ()
  exact ⟨hindex, by decide +kernel, rs, hrs, hinside⟩

end Command
