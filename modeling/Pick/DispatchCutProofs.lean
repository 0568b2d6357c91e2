import Pick.DispatchBoundsProofs

/-! # Payloads that end within a command (`src/command.c`)

`command_parsef` tests before each parameter that it does not start *behind* the
payload, but not that it ends within it, nor that it does not start right at the
end.  A parameter that is followed by another is caught by the test for that one,
and a buffer by the test of its length.  An integer at the end of a command is
not: if the payload ends before or within it, its bytes are taken from the CRC and
the SYNC, and the handler is called.  In the same way the second byte of a message
id is taken from the CRC, which goes unnoticed if the command has no parameters. -/

namespace Command

open Buildcommands List Msgblock Msgproto Option

/-! ## How far a command extends -/

/-- What the bytes of a payload start with: a command, the front of a command, or something else. -/
inductive Extent where
  | complete (length : Nat)
  | cut
  | invalid
  deriving DecidableEq, Repr

/-- With `n` bytes in front. -/
def Extent.behind (n : Nat) : Extent → Extent
  | .complete length => .complete (n + length)
  | .cut => .cut
  | .invalid => .invalid

/-- The extent of parameters. -/
def paramsExtent : List ParamType → List UInt8 → Extent
  | [], _ => .complete 0
  | t :: types, w =>
    if t.isInt then
      match intLength w with
      | none => .cut
      | some n => (paramsExtent types (w.drop n)).behind n
    else if t = .buffer then
      match w with
      | [] => .cut
      | len :: rest =>
        if rest.length < len.toNat then .cut
        else (paramsExtent types (rest.drop len.toNat)).behind (1 + len.toNat)
    else .invalid

/-- The extent of a command with its id. -/
def commandExtent (index : List CommandParser) (w : List UInt8) : Extent :=
  match commandParseMsgid w 0 with
  | none => .cut
  | some (cmdid, n) =>
    match commandLookupParser index cmdid with
    | .error _ => .invalid
    | .ok cp => (paramsExtent cp.paramTypes (w.drop n)).behind n

/-- The bytes end before or within an integer that is the last parameter. -/
def endsInInteger : List ParamType → List UInt8 → Bool
  | [], _ => false
  | t :: types, w =>
    if t.isInt then
      match intLength w with
      | none => types.isEmpty
      | some n => endsInInteger types (w.drop n)
    else if t = .buffer then
      match w with
      | [] => false
      | len :: rest =>
        if rest.length < len.toNat then false
        else endsInInteger types (rest.drop len.toNat)
    else false

/-- The last integer of a command is cut: the last parameter, or, when there is none,
    the id, which then depends on the byte behind the payload. -/
inductive CutInLastInteger (index : List CommandParser) (crc : UInt8) :
    List UInt8 → CommandParser → Prop where
  | param {w : List UInt8} {cmdid n : Nat} {cp : CommandParser}
      (hid : commandParseMsgid w 0 = some (cmdid, n))
      (hcp : commandLookupParser index cmdid = .ok cp)
      (hcut : endsInInteger cp.paramTypes (w.drop n) = true) :
      CutInLastInteger index crc w cp
  | msgid {c : UInt8} {cp : CommandParser} (hc : c &&& 0x80 ≠ 0)
      (hcp : commandLookupParser index (((c &&& 0x7f).toNat <<< 7) ||| crc.toNat) = .ok cp)
      (hnone : cp.paramTypes = []) :
      CutInLastInteger index crc [c] cp

/-! ## Integers at the end of the payload -/

variable {w : List UInt8} {n p msgend : Nat}

theorem intLength_append (x : List UInt8)
    (h : intLength w = some n) : intLength (w ++ x) = some n := by
  fun_induction intLength w generalizing n with
  | case1 => cases h
  | case2 c rest hc =>
    rw [cons_append, intLength, if_pos hc]
    exact h
  | case3 c rest hc ih =>
    obtain ⟨m, hm, rfl⟩ := map_eq_some_iff.mp h
    rw [cons_append, intLength, if_neg hc, ih hm]
    rfl

/-- An integer that has no end in the bytes goes on behind them. -/
theorem lt_of_intLength_append {x : List UInt8} (h : intLength w = none)
    (hn : intLength (w ++ x) = some n) : w.length < n := by
  fun_induction intLength w generalizing n with
  | case1 => exact (intLength_bounds hn).1
  | case2 => cases h
  | case3 c rest hc ih =>
    rw [cons_append, intLength, if_neg hc] at hn
    obtain ⟨m, hm, rfl⟩ := map_eq_some_iff.mp hn
    exact Nat.succ_lt_succ (ih (map_eq_none_iff.mp h) hm)

/-- What ends in the last integer is cut. -/
theorem paramsExtent_endsInInteger {types : List ParamType}
    (h : endsInInteger types w = true) : paramsExtent types w = .cut := by
  fun_induction endsInInteger types w with
  | case1 | case4 | case5 | case7 => cases h
  | case2 t types w hint hn => rw [paramsExtent.eq_def]; simp only [hint, hn, if_true]
  | case3 t types w hint n hn ih =>
    rw [paramsExtent.eq_def]
    simp only [hint, hn, if_true, ih h]
    rfl
  | case6 types len rest hlong hint ih =>
    rw [paramsExtent.eq_def]
    simp only [hint, if_false, if_true, hlong, ih h]
    rfl

/-! ## What the parser makes of it -/

/-- The bytes of the payload from a place on. -/
def payloadFrom (buf : List UInt8) (msgend p : Nat) : List UInt8 := (buf.take msgend).drop p

theorem payloadFrom_drop (buf : List UInt8) (msgend p n : Nat) :
    (payloadFrom buf msgend p).drop n = payloadFrom buf msgend (p + n) := by
  rw [payloadFrom, payloadFrom, drop_drop]

/-- The outcome of parsing bytes of a given extent from place `p` on. -/
structure ParsesAs {α : Type} (e : Extent) (last : Bool) (p msgend : Nat)
    (r : Except Stop (α × Nat)) : Prop where
  complete : ∀ n, e = .complete n → p + n ≤ msgend ∧ ∃ a, r = .ok (a, p + n)
  invalid : e = .invalid → ∃ reason, r = .error (.shutdown reason)
  refused : e = .cut → last = false → ∃ reason, r = .error (.shutdown reason)
  accepted : e = .cut → last = true → ∃ a q, r = .ok (a, q) ∧ msgend < q

/-- With bytes in front that were parsed, and their words. -/
theorem ParsesAs.behind {α β : Type} {e : Extent} {last : Bool}
    {r : Except Stop (α × Nat)} (f : α → β) (h : ParsesAs e last (p + n) msgend r) :
    ParsesAs (e.behind n) last p msgend (r >>= fun x => .ok (f x.1, x.2)) := by
  have herror : ∀ reason, r = .error (.shutdown reason) →
      ∃ reason, (r >>= fun x => (.ok (f x.1, x.2) : Except Stop (β × Nat))) =
        .error (.shutdown reason) := by
    rintro reason rfl
    exact ⟨reason, rfl⟩
  cases e with
  | complete length =>
    refine ⟨fun m hm => ?_, nofun, nofun, nofun⟩
    obtain rfl : n + length = m := Extent.complete.inj hm
    obtain ⟨hle, a, rfl⟩ := h.complete length rfl
    rw [← add_assoc]
    exact ⟨hle, f a, rfl⟩
  | invalid =>
    refine ⟨nofun, fun _ => ?_, nofun, nofun⟩
    obtain ⟨reason, hr⟩ := h.invalid rfl
    exact herror reason hr
  | cut =>
    refine ⟨nofun, nofun, fun _ hlast => ?_, fun _ hlast => ?_⟩
    · obtain ⟨reason, hr⟩ := h.refused rfl hlast
      exact herror reason hr
    · obtain ⟨a, q, rfl, hq⟩ := h.accepted rfl hlast
      exact ⟨f a, q, rfl, hq⟩

/-- What is refused at once. -/
theorem ParsesAs.shutdown {α : Type} {e : Extent} (he : e = .invalid ∨ e = .cut) (reason : String) :
    @ParsesAs α e false p msgend (.error (.shutdown reason)) := by
  refine ⟨fun n hn => ?_, fun _ => ⟨reason, rfl⟩, fun _ _ => ⟨reason, rfl⟩, nofun⟩
  rcases he with rfl | rfl
  · cases hn
  · cases hn

section Fence

variable {buf : List UInt8} {msgend : Nat} (hlong : msgend + 2 < buf.length)
  (hfence : buf.getD (msgend + 2) 0 &&& 0x80 = 0)

include hlong in
theorem drop_eq_payload (hp : p ≤ msgend) :
    buf.drop p = payloadFrom buf msgend p ++ buf.drop msgend := by
  rw [payloadFrom, ← drop_append_of_le_length, take_append_drop]
  rw [length_take]
  omega

include hlong in
theorem length_payloadFrom (p : Nat) : (payloadFrom buf msgend p).length = msgend - p := by
  rw [payloadFrom, length_drop, length_take]
  omega

/-- Behind the payload no parameter may start. -/
theorem commandParsef_behind {types : List ParamType} (hp : msgend < p) (hne : types ≠ []) :
    commandParsef buf msgend types p = .error (.shutdown "Command parser error") := by
  cases types with
  | nil => exact absurd rfl hne
  | cons t types => rw [commandParsef, if_pos hp]

/-- The parameters are parsed as the payload has them. -/
def ParsesParams (buf : List UInt8) (msgend : Nat) (types : List ParamType) (p : Nat) : Prop :=
  ParsesAs (paramsExtent types (payloadFrom buf msgend p))
    (endsInInteger types (payloadFrom buf msgend p)) p msgend
    (commandParsef buf msgend types p)

include hlong hfence

section Head

variable {t : ParamType} {types : List ParamType} {p : Nat}
  (ih : ∀ {p : Nat}, p ≤ msgend → ParsesParams buf msgend types p)

include ih

/-- An integer, with the parameters after it. -/
theorem commandParsef_integer (hint : t.isInt = true) (hp : p ≤ msgend) :
    ParsesParams buf msgend (t :: types) p := by
  have hdrop := drop_eq_payload hlong hp
  have hlength := length_payloadFrom hlong p
  rw [ParsesParams, paramsExtent.eq_def, endsInInteger.eq_def, commandParsef,
    if_neg (not_lt.mpr hp)]
  dsimp only
  rw [if_pos hint, if_pos hint, if_pos hint]
  cases hn : intLength (payloadFrom buf msgend p) with
  | none =>
    -- the integer goes on behind the payload
    obtain ⟨n, hn', -⟩ := intLength_fence hlong hfence (show p ≤ msgend + 2 by omega)
    obtain ⟨v, rest, hparse, hend⟩ := parseInt_of_intLength hn'
    rw [hdrop] at hn'
    have hover := lt_of_intLength_append hn hn'
    rw [hparse]
    dsimp only
    rw [hend]
    cases types with
    | nil =>
      refine ⟨?_, ?_, ?_, fun _ _ => ⟨[v], p + n, rfl, by omega⟩⟩
      · rintro _ ⟨⟩
      · rintro ⟨⟩
      · rintro _ ⟨⟩
    | cons t' types =>
      rw [commandParsef_behind (show msgend < p + n by omega) (cons_ne_nil _ _)]
      exact .shutdown (.inr rfl) _
  | some n =>
    have hle := (intLength_bounds hn).2
    have hn' : intLength (buf.drop p) = some n := by
      rw [hdrop]
      exact intLength_append _ hn
    obtain ⟨v, rest, hparse, hend⟩ := parseInt_of_intLength hn'
    rw [hparse]
    dsimp only
    rw [hend, payloadFrom_drop]
    exact (ih (show p + n ≤ msgend by omega)).behind (v :: ·)

omit hfence in
/-- A buffer, with the parameters after it. -/
theorem commandParsef_buffer (hint : ¬ t.isInt = true) (hbuf : t = .buffer)
    (hp : p ≤ msgend) : ParsesParams buf msgend (t :: types) p := by
  have hdrop := drop_eq_payload hlong hp
  have hlength := length_payloadFrom hlong p
  rw [ParsesParams, paramsExtent.eq_def, endsInInteger.eq_def, commandParsef,
    if_neg (not_lt.mpr hp)]
  dsimp only
  rw [if_neg hint, if_neg hint, if_neg hint, if_pos hbuf, if_pos hbuf, if_pos hbuf]
  cases hw : payloadFrom buf msgend p with
  | nil =>
    -- the length is read from the CRC
    rw [hw, nil_append] at hdrop
    rw [hw, length_nil] at hlength
    obtain ⟨len, tail, hcrc⟩ : ∃ len tail, buf.drop p = len :: tail := by
      refine exists_cons_of_length_pos ?_
      rw [length_drop]
      omega
    rw [hcrc]
    dsimp only
    rw [if_pos (by omega)]
    exact .shutdown (.inr rfl) _
  | cons len rest =>
    rw [hw, cons_append] at hdrop
    rw [hw, length_cons] at hlength
    rw [hdrop]
    dsimp only
    by_cases hshort : rest.length < len.toNat
    · rw [if_pos hshort, if_pos hshort, if_pos (by omega)]
      exact .shutdown (.inr rfl) _
    · have hplace : p + 1 + len.toNat = p + (1 + len.toNat) := by omega
      have hrest : rest.drop len.toNat = payloadFrom buf msgend (p + (1 + len.toNat)) := by
        rw [← payloadFrom_drop, hw, add_comm 1, drop_succ_cons]
      rw [if_neg hshort, if_neg hshort, if_neg (by omega), hrest, hplace]
      exact (ih (show p + (1 + len.toNat) ≤ msgend by omega)).behind
        (len.toUInt32 :: UInt32.ofNat (p + 1) :: ·)

end Head

/-- **PARAMETERS FROM THE PAYLOAD**: the parser takes what is complete, and refuses what
    is cut unless the cut is in an integer at the end. -/
theorem commandParsef_payload {types : List ParamType} {p : Nat} (hp : p ≤ msgend) :
    ParsesParams buf msgend types p := by
  induction types generalizing p with
  | nil =>
    refine ⟨fun n hn => ?_, nofun, nofun, nofun⟩
    obtain rfl : 0 = n := Extent.complete.inj hn
    exact ⟨hp, [], rfl⟩
  | cons t types ih =>
    by_cases hint : t.isInt = true
    · exact commandParsef_integer hlong hfence ih hint hp
    · by_cases hbuf : t = .buffer
      · exact commandParsef_buffer hlong ih hint hbuf hp
      · rw [ParsesParams, paramsExtent.eq_def, endsInInteger.eq_def, commandParsef,
          if_neg (not_lt.mpr hp)]
        dsimp only
        rw [if_neg hint, if_neg hint, if_neg hint, if_neg hbuf, if_neg hbuf, if_neg hbuf]
        exact .shutdown (.inl rfl) _

omit hfence in
/-- An id within the payload. -/
theorem commandParseMsgid_payload {cmdid : Nat} (hp : p < msgend)
    (h : commandParseMsgid (payloadFrom buf msgend p) 0 = some (cmdid, n)) :
    commandParseMsgid buf p = some (cmdid, p + n) ∧ p + n ≤ msgend := by
  have hlength := length_payloadFrom hlong p
  rw [commandParseMsgid, drop_zero] at h
  rw [commandParseMsgid, drop_eq_payload hlong hp.le]
  cases hw : payloadFrom buf msgend p with
  | nil =>
    rw [hw] at h
    cases h
  | cons c rest =>
    rw [hw] at h hlength
    rw [length_cons] at hlength
    rw [cons_append]
    dsimp only at h ⊢
    by_cases hc : c &&& 0x80 = 0
    · rw [if_pos hc] at h ⊢
      cases h
      exact ⟨rfl, by omega⟩
    · rw [if_neg hc] at h ⊢
      cases rest with
      | nil => cases h
      | cons d rest =>
        rw [length_cons] at hlength
        cases h
        exact ⟨rfl, by omega⟩

omit hfence in
/-- The second byte of an id that is cut is the first of the CRC. -/
theorem commandParseMsgid_cut (hp : p < msgend)
    (h : commandParseMsgid (payloadFrom buf msgend p) 0 = none) :
    ∃ c, payloadFrom buf msgend p = [c] ∧ c &&& 0x80 ≠ 0 ∧
      commandParseMsgid buf p =
        some (((c &&& 0x7f).toNat <<< 7) ||| (buf.getD msgend 0).toNat, msgend + 1) := by
  have hlength := length_payloadFrom hlong p
  rw [commandParseMsgid, drop_zero] at h
  rw [commandParseMsgid, drop_eq_payload hlong hp.le]
  cases hw : payloadFrom buf msgend p with
  | nil =>
    rw [hw, length_nil] at hlength
    omega
  | cons c rest =>
    rw [hw] at h hlength
    rw [length_cons] at hlength
    dsimp only at h
    by_cases hc : c &&& 0x80 = 0
    · rw [if_pos hc] at h
      cases h
    · rw [if_neg hc] at h
      cases rest with
      | cons d rest => cases h
      | nil =>
        rw [length_nil] at hlength
        refine ⟨c, rfl, hc, ?_⟩
        rw [drop_eq_getElem_cons (show msgend < buf.length by omega),
          getD_eq_getElem buf 0 (show msgend < buf.length by omega)]
        dsimp only [cons_append, nil_append]
        rw [if_neg hc, show msgend + 1 = p + 2 by omega]

variable {index : List CommandParser}

/-- **CUT IN THE LAST INTEGER**, a command is read as well. -/
theorem readCommand_cut {cp : CommandParser} (hp : p < msgend)
    (h : CutInLastInteger index (buf.getD msgend 0) (payloadFrom buf msgend p) cp) :
    commandExtent index (payloadFrom buf msgend p) = .cut ∧
      ∃ args q, readCommand index buf msgend p = .ok (cp, args, q) ∧ msgend < q := by
  generalize hw : payloadFrom buf msgend p = w at h
  cases h with
  | param hid hcp hcut =>
    rename_i cmdid n
    have hextent := paramsExtent_endsInInteger hcut
    have hcommand : commandExtent index w = .cut := by
      rw [commandExtent, hid]
      dsimp only
      rw [hcp]
      dsimp only
      rw [hextent]
      rfl
    subst hw
    obtain ⟨hid', hk⟩ := commandParseMsgid_payload hlong hp hid
    rw [payloadFrom_drop] at hextent hcut
    obtain ⟨args, q, hargs, hq⟩ := (commandParsef_payload hlong hfence hk).accepted hextent hcut
    exact ⟨hcommand, args, q, readCommand_eq hid' hcp hargs, hq⟩
  | msgid hc hcp hnone =>
    rename_i c
    have hid : commandParseMsgid [c] 0 = none := by
      rw [commandParseMsgid, drop_zero]
      exact if_neg hc
    have hcommand : commandExtent index [c] = .cut := by rw [commandExtent, hid]
    rw [← hw] at hid
    obtain ⟨c', hc', -, hid'⟩ := commandParseMsgid_cut hlong hp hid
    obtain rfl : c' = c := head_eq_of_cons_eq (hc'.symm.trans hw)
    refine ⟨hcommand, [], msgend + 1, readCommand_eq hid' hcp ?_, Nat.lt_succ_self _⟩
    rw [hnone]
    rfl

/-- **ALL ELSE IS REFUSED**. -/
theorem readCommand_payload {p : Nat} (hp : p < msgend) :
    (∃ n, commandExtent index (payloadFrom buf msgend p) = .complete n) ∨
      (∃ cp, CutInLastInteger index (buf.getD msgend 0) (payloadFrom buf msgend p) cp) ∨
      ∃ reason, readCommand index buf msgend p = .error (.shutdown reason) := by
  cases hid : commandParseMsgid (payloadFrom buf msgend p) 0 with
  | none =>
    obtain ⟨c, hw, hc, hid'⟩ := commandParseMsgid_cut hlong hp hid
    rw [readCommand, hid']
    dsimp only
    cases hcp : commandLookupParser index
        (((c &&& 0x7f).toNat <<< 7) ||| (buf.getD msgend 0).toNat) with
    | error e =>
      obtain rfl := commandLookupParser_error hcp
      exact .inr (.inr ⟨_, rfl⟩)
    | ok cp =>
      by_cases hnone : cp.paramTypes = []
      · refine .inr (.inl ⟨cp, ?_⟩)
        rw [hw]
        exact .msgid hc hcp hnone
      · refine .inr (.inr ⟨"Command parser error", ?_⟩)
        show (commandParsef buf msgend cp.paramTypes (msgend + 1) >>= _) = _
        rw [commandParsef_behind (Nat.lt_succ_self _) hnone]
        rfl
  | some r =>
    obtain ⟨cmdid, n⟩ := r
    obtain ⟨hid', hk⟩ := commandParseMsgid_payload hlong hp hid
    rw [readCommand, hid', commandExtent, hid]
    dsimp only
    cases hcp : commandLookupParser index cmdid with
    | error e =>
      obtain rfl := commandLookupParser_error hcp
      exact .inr (.inr ⟨_, rfl⟩)
    | ok cp =>
      have hparams := @commandParsef_payload buf msgend hlong hfence cp.paramTypes _ hk
      have hrefused (f : List UInt32 × Nat → Except Stop (CommandParser × List UInt32 × Nat)) :
          (∃ reason, commandParsef buf msgend cp.paramTypes (p + n) = .error (.shutdown reason)) →
          ∃ reason, (commandParsef buf msgend cp.paramTypes (p + n) >>= f) =
            .error (.shutdown reason) := by
        rintro ⟨reason, hr⟩
        rw [hr]
        exact ⟨reason, rfl⟩
      rw [ParsesParams, ← payloadFrom_drop] at hparams
      dsimp only
      cases he : paramsExtent cp.paramTypes ((payloadFrom buf msgend p).drop n) with
      | complete length => exact .inl ⟨n + length, rfl⟩
      | invalid => exact .inr (.inr (hrefused _ (hparams.invalid he)))
      | cut =>
        cases hlast : endsInInteger cp.paramTypes ((payloadFrom buf msgend p).drop n) with
        | false => exact .inr (.inr (hrefused _ (hparams.refused he hlast)))
        | true => exact .inr (.inl ⟨cp, .param hid hcp hlast⟩)

end Fence

/-! ## The walk -/

variable {σ : Type}

/-- What is asked of a round: the handler is called for a complete command only, and a payload
    that ends within a command ends the walk with a shutdown, unless the command is passed over.
     `result` is what the walk ends with. -/
structure Round.OnlyComplete (fw : Firmware σ) (index : List CommandParser)
    (buf : List UInt8) (msgend : Nat) (result : Except Stop σ) (r : Round σ) : Prop where
  calls : r.call fw index buf msgend ≠ none →
    ∃ n, commandExtent index (payloadFrom buf msgend r.start) = .complete n
  shuts : commandExtent index (payloadFrom buf msgend r.start) = .cut →
    (∃ reason, result = .error (.shutdown reason)) ∨
      fw.schedIsShutdown r.state = true ∧ r.stop fw index buf msgend = none

/-- The command at a round is not cut in its last integer, or it is passed over. -/
def Round.LastIntegerWhole (fw : Firmware σ) (index : List CommandParser)
    (buf : List UInt8) (msgend : Nat) (r : Round σ) : Prop :=
  ∀ cp, CutInLastInteger index (buf.getD msgend 0) (payloadFrom buf msgend r.start) cp →
    fw.schedIsShutdown r.state = true ∧ cp.flags &&& hfInShutdown = 0

/-- **ONE ROUND**. -/
theorem Round.onlyComplete_iff {fw : Firmware σ} {index : List CommandParser}
    {buf : List UInt8} (hlong : msgend + 2 < buf.length)
    (hfence : buf.getD (msgend + 2) 0 &&& 0x80 = 0) {r : Round σ} (hp : r.start < msgend)
    {result : Except Stop σ}
    (hresult : ∀ e, r.stop fw index buf msgend = some e → result = .error e) :
    r.OnlyComplete fw index buf msgend result ↔ r.LastIntegerWhole fw index buf msgend := by
  constructor
  · intro honly cp hcut
    obtain ⟨hextent, args, q, hread, -⟩ := readCommand_cut hlong hfence hp hcut
    by_contra hskip
    cases hf : cp.func with
    | some f =>
      have hcall : r.call fw index buf msgend = some ⟨f, args⟩ := by
        rw [Round.call, hread]
        dsimp only
        rw [if_neg hskip, hf]
        rfl
      obtain ⟨n, hn⟩ := honly.calls (by rw [hcall]; exact some_ne_none _)
      rw [hextent] at hn
      cases hn
    | none =>
      -- an entry that is no command: the firmware jumps to address zero
      have hstop : r.stop fw index buf msgend = some .fault := by
        rw [Round.stop, hread]
        dsimp only
        rw [if_neg hskip, hf]
      rcases honly.shuts hextent with ⟨reason, hshut⟩ | ⟨-, hnone⟩
      · rw [hresult _ hstop] at hshut
        cases hshut
      · rw [hstop] at hnone
        cases hnone
  · intro hwhole
    rcases @readCommand_payload buf msgend hlong hfence index _ hp
      with ⟨n, hn⟩ | ⟨cp, hcut⟩ | ⟨reason, hread⟩
    · refine ⟨fun _ => ⟨n, hn⟩, fun hextent => ?_⟩
      rw [hn] at hextent
      cases hextent
    · obtain ⟨-, args, q, hread, -⟩ := readCommand_cut hlong hfence hp hcut
      have hskip := hwhole cp hcut
      refine ⟨fun hcall => absurd ?_ hcall, fun _ => .inr ⟨hskip.1, ?_⟩⟩
      · rw [Round.call, hread]
        exact if_pos hskip
      · rw [Round.stop, hread]
        exact if_pos hskip
    · refine ⟨fun hcall => absurd ?_ hcall, fun _ => .inl ⟨reason, hresult _ ?_⟩⟩
      · rw [Round.call, hread]
      · rw [Round.stop, hread]

/-- Only complete commands run: the calls are those of the rounds, and each round does what is
    asked of it. -/
def OnlyComplete (fw : Firmware σ) (index : List CommandParser) (buf : List UInt8)
    (msglen : Nat) (s : σ) : Prop :=
  ∃ rs, rounds fw index buf (msglen - 3) msglen 2 s = some rs ∧
    (commandDispatch fw index buf msglen s).1 =
      rs.filterMap (Round.call fw index buf (msglen - 3)) ∧
    ∀ r ∈ rs, r.OnlyComplete fw index buf (msglen - 3) (commandDispatch fw index buf msglen s).2

/-- **ONLY COMPLETE COMMANDS RUN** exactly when no command that the walk comes to is
    cut in its last integer, other than one that is passed over. -/
theorem onlyComplete_iff_lastIntegerWhole {index : List CommandParser} {buf : List UInt8}
    {msglen : Nat} (hblock : scanBlock buf = .block msglen) (fw : Firmware σ) (s : σ) :
    OnlyComplete fw index buf msglen s ↔
      ∃ rs, rounds fw index buf (msglen - 3) msglen 2 s = some rs ∧
        ∀ r ∈ rs, r.LastIntegerWhole fw index buf (msglen - 3) := by
  obtain ⟨hmin, hle, hsync⟩ := scanBlock_block hblock
  have hfive : 5 ≤ msglen := hmin
  have hlong : msglen - 3 + 2 < buf.length := by omega
  have hfence : buf.getD (msglen - 3 + 2) 0 &&& 0x80 = 0 := by
    rw [show msglen - 3 + 2 = msglen - 1 by omega, hsync]
    rfl
  obtain ⟨rs, hrs, hstarts⟩ := rounds_end fw index buf s (show msglen - 3 ≤ 2 + msglen by omega)
  obtain ⟨hcalls, hstops⟩ := dispatchLoop_rounds hrs
  have hround : ∀ r ∈ rs,
      (r.OnlyComplete fw index buf (msglen - 3) (commandDispatch fw index buf msglen s).2 ↔
        r.LastIntegerWhole fw index buf (msglen - 3)) :=
    fun r hr => Round.onlyComplete_iff hlong hfence (hstarts r hr).2 (hstops r hr)
  constructor
  · rintro ⟨rs', hrs', -, honly⟩
    obtain rfl : rs = rs' := some.inj (hrs.symm.trans hrs')
    exact ⟨rs, hrs, fun r hr => (hround r hr).mp (honly r hr)⟩
  · rintro ⟨rs', hrs', hwhole⟩
    obtain rfl : rs = rs' := some.inj (hrs.symm.trans hrs')
    exact ⟨rs, hrs, hcalls, fun r hr => (hround r hr).mpr (hwhole r hr)⟩

/-! ## One integer, and no byte of it -/

/-- A table with one command of one parameter. -/
def allocateOids : List CommandParser := [{}, {}, ⟨2, 1, 0, [.byte], some "command_allocate_oids"⟩]

/-- With its parameter, the command runs. -/
theorem onlyComplete_allocateOids :
    scanBlock (addFrame 0x10 [0x02, 0x05]) = .block 7 ∧
      (commandDispatch plainFirmware allocateOids (addFrame 0x10 [0x02, 0x05]) 7 ()).1 =
        [⟨"command_allocate_oids", [5]⟩] ∧
      OnlyComplete plainFirmware allocateOids (addFrame 0x10 [0x02, 0x05]) 7 () := by
  have hblock : scanBlock (addFrame 0x10 [0x02, 0x05]) = .block 7 := by decide +kernel
  refine ⟨hblock, by decide +kernel, ?_⟩
  refine (onlyComplete_iff_lastIntegerWhole hblock plainFirmware ()).mpr
    ⟨[⟨2, ()⟩], by decide +kernel, ?_⟩
  refine forall_mem_singleton.mpr fun cp hcut => ?_
  have hcomplete : commandExtent allocateOids
      (payloadFrom (addFrame 0x10 [0x02, 0x05]) 4 2) = .complete 2 := by decide +kernel
  have hextent := (readCommand_cut (by decide +kernel) (by decide +kernel) (by decide) hcut).1
  cases hcomplete.symm.trans hextent

/-- **CRC BYTES AS A PARAMETER**: the payload is the id alone, and the handler is
    called with the CRC for its parameter. -/
theorem crc_read_as_parameter :
    BuiltTable allocateOids ∧ scanBlock (addFrame 0x10 [0x02]) = .block 6 ∧
      (addFrame 0x10 [0x02]).drop 3 = [0x59, 0x69, 0x7e] ∧
      commandDispatch plainFirmware allocateOids (addFrame 0x10 [0x02]) 6 () =
        ([⟨"command_allocate_oids", [0x59]⟩], .ok ()) ∧
      ¬ OnlyComplete plainFirmware allocateOids (addFrame 0x10 [0x02]) 6 () := by
  refine ⟨?_, by decide +kernel, by decide +kernel, by decide +kernel, ?_⟩
  · intro cp hcp
    rcases mem_cons.mp hcp with rfl | hcp
    · exact .inl rfl
    rcases mem_cons.mp hcp with rfl | hcp
    · exact .inl rfl
    obtain rfl := mem_singleton.mp hcp
    exact .inr ⟨2, "allocate_oids count=%c", 0, "command_allocate_oids", by decide⟩
  · rintro ⟨rs, hrs, -, honly⟩
    obtain rfl : rs = [⟨2, ()⟩] := some.inj (hrs.symm.trans (by decide +kernel))
    obtain ⟨n, hn⟩ := (honly _ (mem_singleton_self _)).calls (by decide +kernel)
    have hcut : commandExtent allocateOids
        (payloadFrom (addFrame 0x10 [0x02]) 3 2) = .cut := by decide +kernel
    cases hcut.symm.trans hn

end Command
