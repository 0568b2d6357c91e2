import Pick.FramerProofs
import Pick.MsgblockProofs

/-! # Blocks out of a stream of bytes

Bytes arrive in reads of any size.  The firmware calls `command_find_block` on what
it has and pops what was consumed (`src/command.c`; the console task for Linux shows
it at most 64 bytes); the host's `input_event` calls `msgblock_check` until it asks
for more (`klippy/chelper/serialqueue.c`).  Both are framers, and both resume: a
decision on the front of the buffer stays the same when bytes are added, except that
a search for a SYNC which takes the whole buffer goes on in the next call. -/

namespace Msgblock

open Framer List Option

/-! ## Decisions do not change when bytes are added -/

variable {st : FindState} {b : List UInt8}

/-- Once the tests have an outcome it stays. -/
theorem scanBlock_append {r : Scan} (x : List UInt8) (hmin : messageMin ≤ b.length)
    (hr : scanBlock b = r) (h : r ≠ .needMoreData) : scanBlock (b ++ x) = r := by
  subst hr
  have hlen : 5 ≤ b.length := hmin
  have h0 : (b ++ x).getD 0 0 = b.getD 0 0 := getD_append _ _ _ _ (by omega)
  have h1 : (b ++ x).getD 1 0 = b.getD 1 0 := getD_append _ _ _ _ (by omega)
  unfold scanBlock at h ⊢
  simp only [h0, h1] at h ⊢
  split at h
  · next hbad => rw [if_pos hbad, if_pos hbad]
  next hgood =>
  split at h
  · next hseq => rw [if_neg hgood, if_pos hseq, if_neg hgood, if_pos hseq]
  next hseq =>
  split at h
  · exact absurd rfl h
  next hlong =>
  -- the whole block is there, so no test looks behind it
  have hpos : 5 ≤ (b.getD 0 0).toNat := by
    have hnot : ¬ (b.getD 0 0).toNat < 5 := fun hlt => hgood (.inl hlt)
    omega
  have hlong' : ¬ (b ++ x).length < (b.getD 0 0).toNat := by
    rw [length_append]
    omega
  rw [if_neg hgood, if_neg hseq, if_neg hlong', if_neg hgood, if_neg hseq,
    if_neg hlong, getD_append _ _ _ _ (by omega), getD_append _ _ _ _ (by omega),
    getD_append _ _ _ _ (by omega), take_append_of_le_length (by omega)]

/-- Only less than a block of the largest size asks for more. -/
theorem scanBlock_needMoreData (h : scanBlock b = .needMoreData) : b.length < messageMax := by
  unfold scanBlock at h
  simp only at h
  split at h
  · cases h
  next hgood =>
  split at h
  · cases h
  split at h
  · next hshort =>
      have hmax : ¬ (b.getD 0 0).toNat > messageMax := fun hgt => hgood (.inr hgt)
      omega
  split at h
  · cases h
  split at h
  · cases h
  · cases h

theorem idxOf_sync_append (b x : List UInt8) :
    (b ++ x).idxOf? messageSync = (b.idxOf? messageSync).or
      ((x.idxOf? messageSync).map (· + b.length)) := by
  rw [List.idxOf?, findIdx?_append]

variable {i n : ℕ} {needSync : Bool} {r : Reader}

theorem idxOf_sync_lt (h : b.idxOf? messageSync = some i) : i < b.length := by
  rw [List.idxOf?, findIdx?_eq_some_iff_getElem] at h
  exact h.1

/-- The search for a SYNC takes the whole buffer if there is none. -/
theorem findSync_eq (st : FindState) (b : List UInt8) : findSync st b =
    match b.idxOf? messageSync with
    | some i => ⟨-1, i + 1, !st.needValid, { st with needSync := false, needValid := true }⟩
    | none => ⟨-1, b.length, !st.needValid, { st with needValid := true }⟩ := by
  obtain ⟨needSync, needValid, nextSequence⟩ := st
  rw [findSync]
  cases b.idxOf? messageSync with
  | some i | none =>
    cases needValid with
    | true | false => rfl

/-! ## The firmware -/

/-- What the firmware does with the stream: it dispatches a block, or sends a nak. -/
inductive Event where
  | block (bytes : List UInt8)
  | nak
  deriving DecidableEq, Repr

/-- What the callers make of a result: nothing if it is 0, otherwise they pop, and dispatch if
    it is positive. -/
def FindResult.step (r : FindResult) (b : List UInt8) : Option (FindState × ℕ × List Event) :=
  if r.ret = 0 then none
  else some (r.state, r.popCount,
    (if r.ret > 0 then [.block (b.take r.popCount)] else []) ++ if r.nak then [.nak] else [])

/-- A call of `command_find_block` and what follows from it. -/
def findStep (st : FindState) (b : List UInt8) : Option (FindState × ℕ × List Event) :=
  (commandFindBlock st b).step b

/-- A search for a SYNC as a step. -/
def syncStep (st : FindState) (b : List UInt8) : FindState × ℕ × List Event :=
  ((findSync st b).state, (findSync st b).popCount, if st.needValid then [] else [.nak])

theorem findSync_step (st : FindState) (b : List UInt8) :
    (findSync st b).step b = some (syncStep st b) := by
  rw [syncStep, findSync_eq]
  cases b.idxOf? messageSync with
  | some i | none =>
    cases st.needValid with
    | true | false => rfl

theorem syncStep_found (h : b.idxOf? messageSync = some i) :
    syncStep st b = ({ st with needSync := false, needValid := true }, i + 1,
      if st.needValid then [] else [.nak]) := by
  rw [syncStep, findSync_eq, h]

theorem syncStep_missing (h : b.idxOf? messageSync = none) :
    syncStep st b = ({ st with needValid := true }, b.length,
      if st.needValid then [] else [.nak]) := by
  rw [syncStep, findSync_eq, h]

/-- A search that has taken the whole buffer goes on in the bytes that follow, and
    sends no second nak. -/
theorem syncStep_append (h : b.idxOf? messageSync = none) (x : List UInt8) :
    syncStep st (b ++ x) =
      ((syncStep { st with needValid := true } x).1,
        b.length + (syncStep { st with needValid := true } x).2.1,
        (if st.needValid then [] else [.nak]) ++
          (syncStep { st with needValid := true } x).2.2) := by
  have happend := idxOf_sync_append b x
  rw [h, none_or] at happend
  cases hx : x.idxOf? messageSync with
  | some i =>
    rw [hx, map_some] at happend
    have hcount : i + b.length + 1 = b.length + (i + 1) := by omega
    rw [syncStep_found happend, syncStep_found hx, hcount]
    exact Prod.ext rfl (Prod.ext rfl (append_nil _).symm)
  | none =>
    rw [hx, map_none] at happend
    rw [syncStep_missing happend, syncStep_missing hx, length_append]
    exact Prod.ext rfl (Prod.ext rfl (append_nil _).symm)

/-! What a call does, in the order of the source. -/

theorem findStep_searching (hb : b ≠ []) (hsync : st.needSync = true) :
    findStep st b = some (syncStep st b) := by
  rw [findStep, commandFindBlock, if_pos ⟨hb, hsync⟩]
  exact findSync_step st b

section InSync

variable {st : FindState} {b : List UInt8} (hsync : ¬ (b ≠ [] ∧ st.needSync = true))
include hsync

theorem findStep_short (h : b.length < messageMin) : findStep st b = none := by
  rw [findStep, commandFindBlock, if_neg hsync, if_pos h]
  rfl

variable (hmin : messageMin ≤ b.length)
include hmin

theorem findStep_more (h : scanBlock b = .needMoreData) : findStep st b = none := by
  rw [findStep, commandFindBlock, if_neg hsync, if_neg (not_lt.mpr hmin), h]
  rfl

theorem findStep_error (h : scanBlock b = .error) :
    findStep st b = if b.getD 0 0 = messageSync then some (st, 1, [])
      else some (syncStep { st with needSync := true } b) := by
  rw [findStep, commandFindBlock, if_neg hsync, if_neg (not_lt.mpr hmin), h]
  dsimp only
  by_cases hlead : b.getD 0 0 = messageSync
  · rw [if_pos hlead, if_pos hlead]
    rfl
  · rw [if_neg hlead, if_neg hlead]
    exact findSync_step _ b

theorem findStep_block {msglen : ℕ} (h : scanBlock b = .block msglen) :
    findStep st b = if b.getD 1 0 ≠ st.nextSequence then
        some ({ st with needValid := false }, msglen, [.nak])
      else some ({ st with
          needValid := false
          nextSequence := ((b.getD 1 0 + 1) &&& messageSeqMask) ||| messageDest },
        msglen, [.block (b.take msglen)]) := by
  rw [findStep, commandFindBlock, if_neg hsync, if_neg (not_lt.mpr hmin), h]
  dsimp only
  by_cases hseq : b.getD 1 0 ≠ st.nextSequence
  · rw [if_pos hseq, if_pos hseq]
    rfl
  · rw [if_neg hseq, if_neg hseq]
    rfl

end InSync

/-- How a call goes on when bytes are added: not at all, or as a search. -/
def Extends (st : FindState) (b : List UInt8) (st' : FindState) (n : ℕ)
    (out : List Event) (x : List UInt8) : Prop :=
  findStep st (b ++ x) = some (st', n, out) ∨
    n = b.length ∧ st'.needSync = true ∧
      findStep st (b ++ x) = some ((syncStep st' x).1, b.length + (syncStep st' x).2.1,
        out ++ (syncStep st' x).2.2)

/-- A search on `b`, and on more. -/
theorem syncStep_extends (hb : b ≠ []) (hsync : st.needSync = true) {st₀ : FindState}
    (hstep : ∀ x, findStep st₀ (b ++ x) = some (syncStep st (b ++ x))) :
    (0 < (syncStep st b).2.1 ∧ (syncStep st b).2.1 ≤ b.length) ∧
      ∀ x, Extends st₀ b (syncStep st b).1 (syncStep st b).2.1 (syncStep st b).2.2 x := by
  cases h : b.idxOf? messageSync with
  | some i =>
    have hlt := idxOf_sync_lt h
    rw [syncStep_found h]
    refine ⟨show 0 < i + 1 ∧ i + 1 ≤ b.length by omega, fun x => .inl ?_⟩
    have happend := idxOf_sync_append b x
    rw [h, some_or] at happend
    rw [hstep, syncStep_found happend]
  | none =>
    rw [syncStep_missing h]
    refine ⟨⟨length_pos_iff.mpr hb, le_refl _⟩, fun x => .inr ⟨rfl, hsync, ?_⟩⟩
    rw [hstep, syncStep_append h]

/-- **A CALL AND MORE BYTES**: on a longer buffer a call does the same or searches on. -/
theorem findStep_extends {st st' : FindState} {out : List Event}
    (h : findStep st b = some (st', n, out)) :
    (0 < n ∧ n ≤ b.length) ∧ ∀ x, Extends st b st' n out x := by
  by_cases hsync : b ≠ [] ∧ st.needSync = true
  · obtain ⟨hb, hneed⟩ := hsync
    rw [findStep_searching hb hneed] at h
    have hext := syncStep_extends hb hneed fun x =>
      findStep_searching (append_ne_nil_of_left_ne_nil hb x) hneed
    rw [some.inj h] at hext
    exact hext
  by_cases hmin : b.length < messageMin
  · rw [findStep_short hsync hmin] at h
    cases h
  have hle : messageMin ≤ b.length := not_lt.mp hmin
  have hpos : 5 ≤ b.length := hle
  have hb : b ≠ [] := length_pos_iff.mp (by omega)
  -- the buffer is not empty, so nothing is being searched
  have hsync' : ∀ x, ¬ (b ++ x ≠ [] ∧ st.needSync = true) := fun x hx => hsync ⟨hb, hx.2⟩
  have hle' : ∀ x, messageMin ≤ (b ++ x).length := fun x => by
    rw [length_append]
    omega
  have h0 : ∀ x, (b ++ x).getD 0 0 = b.getD 0 0 := fun x => getD_append _ _ _ _ (by omega)
  have h1 : ∀ x, (b ++ x).getD 1 0 = b.getD 1 0 := fun x => getD_append _ _ _ _ (by omega)
  cases hscan : scanBlock b with
  | needMoreData =>
    rw [findStep_more hsync hle hscan] at h
    cases h
  | error =>
    have herror : ∀ x, scanBlock (b ++ x) = .error := fun x => scanBlock_append x hle hscan nofun
    rw [findStep_error hsync hle hscan] at h
    by_cases hlead : b.getD 0 0 = messageSync
    · rw [if_pos hlead] at h
      obtain ⟨rfl, rfl, rfl⟩ : st = st' ∧ 1 = n ∧ [] = out := by simpa using h
      refine ⟨⟨by omega, by omega⟩, fun x => .inl ?_⟩
      rw [findStep_error (hsync' x) (hle' x) (herror x), h0, if_pos hlead]
    · rw [if_neg hlead] at h
      have hneed : ({ st with needSync := true } : FindState).needSync = true := rfl
      have hext := syncStep_extends hb hneed fun x => by
        rw [findStep_error (hsync' x) (hle' x) (herror x), h0, if_neg hlead]
      rw [some.inj h] at hext
      exact hext
  | block msglen =>
    have hblock : ∀ x, scanBlock (b ++ x) = .block msglen := fun x =>
      scanBlock_append x hle hscan nofun
    obtain ⟨hfive, htaken, -⟩ := scanBlock_block hscan
    have hpos : 0 < msglen := lt_of_lt_of_le (by decide) hfive
    have hsame : ∀ x, findStep st (b ++ x) = findStep st b := fun x => by
      rw [findStep_block (hsync' x) (hle' x) (hblock x),
        findStep_block hsync hle hscan, h1, take_append_of_le_length htaken]
    refine ⟨?_, fun x => .inl ((hsame x).trans h)⟩
    rw [findStep_block hsync hle hscan] at h
    split at h
    · obtain ⟨-, rfl, -⟩ : _ ∧ msglen = n ∧ _ := by simpa using h
      exact ⟨hpos, htaken⟩
    · obtain ⟨-, rfl, -⟩ : _ ∧ msglen = n ∧ _ := by simpa using h
      exact ⟨hpos, htaken⟩

/-- The firmware as a framer. -/
def firmwareFramer : Framer FindState UInt8 Event where
  step := findStep
  taken h := (findStep_extends h).1

theorem firmwareFramer_resumes : Resumes firmwareFramer := by
  intro st b st' n out x h
  rcases (findStep_extends h).2 x with hsame | ⟨rfl, hneed, hmore⟩
  · exact out_of_stable hsame
  · rw [drop_left]
    cases x with
    | nil => rw [append_nil, runAll_some h, drop_length]
    | cons byte x =>
      have hsearch : firmwareFramer.step st' (byte :: x) = some (syncStep st' (byte :: x)) :=
        findStep_searching (cons_ne_nil _ _) hneed
      refine out_of_continued ?_ (by rw [hsearch]; rfl)
      rw [hsearch]
      exact hmore

/-! ## The host -/

/-- One round of the loop of `input_event`: the message for `handle_message`, if any, and the
    bytes removed. -/
def checkStep (needSync : Bool) (b : List UInt8) : Option (Bool × ℕ × List (List UInt8)) :=
  let (needSync, len) := msgblockCheck needSync b
  if len = 0 then none
  else if len > 0 then some (needSync, len.toNat, [b.take len.toNat])
  else some (needSync, (-len).toNat, [])

/-- Label `error` of `msgblock_check` as a step. -/
def discardStep (b : List UInt8) : Bool × ℕ × List (List UInt8) :=
  match b.idxOf? messageSync with
  | some i => (false, i + 1, [])
  | none => (true, b.length, [])

theorem discardStep_out (b : List UInt8) : (discardStep b).2.2 = [] := by
  rw [discardStep]
  split
  · rfl
  · rfl

/-- A negative return value discards bytes. -/
theorem checkStep_of_neg {needSync' : Bool} (hn : 0 < n)
    (hcheck : msgblockCheck needSync b = (needSync', -(n : ℤ))) :
    checkStep needSync b = some (needSync', n, []) := by
  rw [checkStep, hcheck]
  dsimp only
  rw [if_neg (by omega), if_neg (by omega), neg_neg, Int.toNat_natCast]

theorem checkStep_short (h : b.length < messageMin) : checkStep needSync b = none := by
  rw [checkStep, msgblockCheck_eq, if_pos h]
  rfl

section Long

variable {needSync : Bool} {b : List UInt8} (hmin : messageMin ≤ b.length)
include hmin

theorem checkStep_discard (h : needSync = true ∨ scanBlock b = .error) :
    checkStep needSync b = some (discardStep b) := by
  have hlen : 5 ≤ b.length := hmin
  have hcheck : msgblockCheck needSync b = discardToSync b := by
    rw [msgblockCheck_eq, if_neg (not_lt.mpr hmin)]
    by_cases hneed : needSync = true
    · exact if_pos hneed
    · rw [if_neg hneed]
      generalize scanBlock b = scan at h ⊢
      obtain rfl := h.resolve_left hneed
      rfl
  cases hidx : b.idxOf? messageSync with
  | some i =>
    rw [discardToSync, hidx] at hcheck
    rw [checkStep_of_neg (Nat.succ_pos i) hcheck, discardStep, hidx]
  | none =>
    rw [discardToSync, hidx] at hcheck
    rw [checkStep_of_neg (by omega) hcheck, discardStep, hidx]

theorem checkStep_more (h : scanBlock b = .needMoreData) : checkStep false b = none := by
  rw [checkStep, msgblockCheck_eq, if_neg (not_lt.mpr hmin), h]
  rfl

theorem checkStep_block {msglen : ℕ} (h : scanBlock b = .block msglen) :
    checkStep false b = some (false, msglen, [b.take msglen]) := by
  have hpos : 5 ≤ msglen := (scanBlock_block h).1
  have hcheck : msgblockCheck false b = (false, (msglen : ℤ)) := by
    rw [msgblockCheck_eq, if_neg (not_lt.mpr hmin), h]
    rfl
  rw [checkStep, hcheck]
  dsimp only
  rw [if_neg (by omega), if_pos (by omega), Int.toNat_natCast]

end Long

/-- **A ROUND AND MORE BYTES**: on a longer buffer a round does the same, or it discards more. -/
theorem checkStep_extends {needSync' : Bool} {out : List (List UInt8)}
    (h : checkStep needSync b = some (needSync', n, out)) :
    (0 < n ∧ n ≤ b.length) ∧ ∀ x, checkStep needSync (b ++ x) = some (needSync', n, out) ∨
      (n = b.length ∧ needSync' = true ∧ out = [] ∧ b.idxOf? messageSync = none ∧
        checkStep needSync (b ++ x) = some (discardStep (b ++ x))) := by
  by_cases hmin : b.length < messageMin
  · rw [checkStep_short hmin] at h
    cases h
  have hle : messageMin ≤ b.length := not_lt.mp hmin
  have hpos : 5 ≤ b.length := hle
  have hle' : ∀ x, messageMin ≤ (b ++ x).length := fun x => by
    rw [length_append]
    omega
  by_cases hdiscard : needSync = true ∨ scanBlock b = .error
  · rw [checkStep_discard hle hdiscard, discardStep] at h
    have hmore : ∀ x, checkStep needSync (b ++ x) = some (discardStep (b ++ x)) :=
      fun x => checkStep_discard (hle' x) (hdiscard.imp_right fun herror =>
        scanBlock_append x hle herror nofun)
    cases hidx : b.idxOf? messageSync with
    | some i =>
      rw [hidx] at h
      obtain ⟨rfl, rfl, rfl⟩ : false = needSync' ∧ i + 1 = n ∧ [] = out := by simpa using h
      have hlt := idxOf_sync_lt hidx
      refine ⟨⟨by omega, by omega⟩, fun x => .inl ?_⟩
      rw [hmore, discardStep, idxOf_sync_append, hidx, some_or]
    | none =>
      rw [hidx] at h
      obtain ⟨rfl, rfl, rfl⟩ : true = needSync' ∧ b.length = n ∧ [] = out := by simpa using h
      exact ⟨⟨by omega, le_refl _⟩, fun x => .inr ⟨rfl, rfl, rfl, rfl, hmore x⟩⟩
  · obtain ⟨hneed, hscan⟩ := not_or.mp hdiscard
    obtain rfl : needSync = false := Bool.eq_false_iff.mpr hneed
    cases hblock : scanBlock b with
    | needMoreData =>
      rw [checkStep_more hle hblock] at h
      cases h
    | error => exact absurd hblock hscan
    | block msglen =>
      obtain ⟨hfive, htaken, -⟩ := scanBlock_block hblock
      have hpos : 0 < msglen := lt_of_lt_of_le (by decide) hfive
      rw [checkStep_block hle hblock] at h
      obtain ⟨rfl, rfl, rfl⟩ : false = needSync' ∧ msglen = n ∧
        [b.take msglen] = out := by simpa using h
      refine ⟨⟨hpos, htaken⟩, fun x => .inl ?_⟩
      rw [checkStep_block (hle' x) (scanBlock_append x hle hblock nofun),
        take_append_of_le_length htaken]

/-- The host as a framer. -/
def hostFramer : Framer Bool UInt8 (List UInt8) where
  step := checkStep
  taken h := (checkStep_extends h).1

/-- Fewer than five bytes hold no message, wherever the search for a SYNC is. -/
theorem runAll_short (needSync : Bool) (h : b.length < messageMin) :
    (runAll hostFramer needSync b).out = [] := by
  rw [runAll_none (checkStep_short h : hostFramer.step needSync b = none)]

theorem hostFramer_resumes : Resumes hostFramer := by
  intro needSync b needSync' n out x h
  rcases (checkStep_extends h).2 x with hsame | ⟨rfl, rfl, rfl, hidx, hmore⟩
  · exact out_of_stable hsame
  rw [drop_left, nil_append]
  have happend := idxOf_sync_append b x
  rw [hidx, none_or] at happend
  by_cases hx : x.length < messageMin
  · -- too short to be searched now; what is left holds no message either way
    have hstep : hostFramer.step needSync (b ++ x) = some ((discardStep (b ++ x)).1,
        (discardStep (b ++ x)).2.1, (discardStep (b ++ x)).2.2) := hmore
    have hleft : ((b ++ x).drop (discardStep (b ++ x)).2.1).length < messageMin := by
      rw [discardStep, happend, length_drop, length_append]
      cases x.idxOf? messageSync with
      | some i =>
        show b.length + x.length - (i + b.length + 1) < messageMin
        omega
      | none =>
        show b.length + x.length - (b.length + x.length) < messageMin
        omega
    rw [out_of_stable hstep, discardStep_out, runAll_short _ hleft, runAll_short _ hx]
    rfl
  · have hsearch : hostFramer.step true x = some (discardStep x) :=
      checkStep_discard (not_lt.mp hx) (.inl rfl)
    refine (out_of_continued ?_ (by rw [hsearch]; rfl)).trans (nil_append _)
    rw [hsearch]
    refine hmore.trans (congrArg some ?_)
    rw [discardStep, discardStep, happend]
    cases x.idxOf? messageSync with
    | some i =>
      have hcount : i + b.length + 1 = b.length + (i + 1) := by omega
      exact Prod.ext rfl (Prod.ext hcount rfl)
    | none => exact Prod.ext rfl (Prod.ext length_append rfl)

/-! ## The reader of the host -/

/-- What `input_event` finds on its file: bytes of a serial port, a CAN frame, or an
    error or the end of the file, at which the thread exits. -/
inductive Input where
  | read (data : List UInt8)
  | frame (canId : ℕ) (data : List UInt8)
  | failed

/-- The fields of the queue that `input_event` works on; `input_pos` is the length of `inputBuf`. -/
structure Reader where
  clientId : ℕ := 0
  needSync : Bool := false
  inputBuf : List UInt8 := []
  deriving DecidableEq

/-- The loop of `input_event` with new bytes behind the old ones. -/
def Reader.receive (r : Reader) (data : List UInt8) : Reader × List (List UInt8) :=
  let left := runAll hostFramer r.needSync (r.inputBuf ++ data)
  ({ r with needSync := left.state, inputBuf := left.buf }, left.out)

/-- `input_event`, with the messages that it hands to `handle_message`. -/
def inputEvent (r : Reader) : Input → Reader × List (List UInt8)
  | .failed => (r, [])
  | .frame canId data => if canId ≠ r.clientId + 1 then (r, []) else r.receive data
  | .read data => r.receive data

/-- A sequence of calls of `input_event`. -/
def inputEvents (r : Reader) : List Input → Reader × List (List UInt8)
  | [] => (r, [])
  | input :: inputs =>
    let (r, messages) := inputEvent r input
    let (r, more) := inputEvents r inputs
    (r, messages ++ more)

/-- The bytes of an input that are for the reader. -/
def Reader.accepted (r : Reader) : Input → List UInt8
  | .failed => []
  | .frame canId data => if canId ≠ r.clientId + 1 then [] else data
  | .read data => data

/-- The stream that the reader is given. -/
def Reader.stream (r : Reader) (inputs : List Input) : List UInt8 := inputs.flatMap r.accepted

/-- The reader has asked for more bytes. -/
def Reader.Waits (r : Reader) : Prop := checkStep r.needSync r.inputBuf = none

instance (r : Reader) : Decidable r.Waits :=
  inferInstanceAs (Decidable (checkStep r.needSync r.inputBuf = none))

/-- A reader that waits has less than a block of the largest size. -/
theorem Reader.Waits.length_lt (h : r.Waits) : r.inputBuf.length < messageMax := by
  rw [Reader.Waits] at h
  by_cases hmin : r.inputBuf.length < messageMin
  · exact hmin.trans (by decide)
  have hle : messageMin ≤ r.inputBuf.length := not_lt.mp hmin
  by_cases hdiscard : r.needSync = true ∨ scanBlock r.inputBuf = .error
  · rw [checkStep_discard hle hdiscard] at h
    cases h
  obtain ⟨hneed, hscan⟩ := not_or.mp hdiscard
  rw [Bool.eq_false_iff.mpr hneed] at h
  cases hblock : scanBlock r.inputBuf with
  | needMoreData => exact scanBlock_needMoreData hblock
  | error => exact absurd hblock hscan
  | block msglen =>
    rw [checkStep_block hle hblock] at h
    cases h

/-- An event leaves the reader waiting, and puts out what its bytes give. -/
theorem inputEvent_spec (h : r.Waits) (input : Input) :
    (inputEvent r input).1.Waits ∧ (inputEvent r input).1.clientId = r.clientId ∧
      inputEvent r input = r.receive (r.accepted input) := by
  have hreceive : ∀ data, (r.receive data).1.Waits := fun data =>
    step_runAll (f := hostFramer) r.needSync (r.inputBuf ++ data)
  have hstep : hostFramer.step r.needSync r.inputBuf = none := h
  have hnone : r.receive [] = (r, []) := by rw [Reader.receive, append_nil, runAll_none hstep]
  cases input with
  | failed => exact ⟨h, rfl, hnone.symm⟩
  | frame canId data =>
    rw [inputEvent, Reader.accepted]
    by_cases hid : canId ≠ r.clientId + 1
    · rw [if_pos hid, if_pos hid]
      exact ⟨h, rfl, hnone.symm⟩
    · rw [if_neg hid, if_neg hid]
      exact ⟨hreceive data, rfl, rfl⟩
  | read data => exact ⟨hreceive data, rfl, rfl⟩

/-- **A RUN OF THE READER**: it waits after every event, and its messages are those
    of the stream as a whole. -/
theorem inputEvents_spec (h : r.Waits) (inputs : List Input) :
    (inputEvents r inputs).1.Waits ∧ (inputEvents r inputs).2 =
      (runAll hostFramer r.needSync (r.inputBuf ++ r.stream inputs)).out := by
  induction inputs generalizing r with
  | nil =>
    have hstep : hostFramer.step r.needSync r.inputBuf = none := h
    refine ⟨h, ?_⟩
    show [] = (runAll hostFramer r.needSync (r.inputBuf ++ [])).out
    rw [append_nil, runAll_none hstep]
  | cons input inputs ih =>
    obtain ⟨hwaits, hid, hevent⟩ := inputEvent_spec h input
    obtain ⟨hend, hmore⟩ := ih hwaits
    have hstream : (inputEvent r input).1.stream inputs = r.stream inputs := by
      unfold Reader.stream
      refine congrArg (fun g => inputs.flatMap g) (funext fun i => ?_)
      cases i with
      | failed => rfl
      | frame canId data => rw [Reader.accepted, Reader.accepted, hid]
      | read data => rfl
    refine ⟨hend, ?_⟩
    show (inputEvent r input).2 ++ (inputEvents (inputEvent r input).1 inputs).2 =
      (runAll hostFramer r.needSync (r.inputBuf ++ (r.accepted input ++ r.stream inputs))).out
    rw [hmore, hstream, hevent, ← append_assoc]
    exact (hostFramer_resumes.runAll_append _ _ _).symm

/-! ## Independence of the reads -/

/-- The blocks that are dispatched. -/
def dispatched (events : List Event) : List (List UInt8) :=
  events.filterMap fun
    | .block bytes => some bytes
    | .nak => none

/-- A run of reads and calls of the firmware. -/
def firmwareRun (st : FindState) (buf : List UInt8) (acts : List (Act UInt8)) :
    Left FindState UInt8 Event :=
  runs firmwareFramer st buf acts

/-- The calls have been repeated until `command_find_block` returned 0. -/
def Settled (left : Left FindState UInt8 Event) : Prop :=
  (commandFindBlock left.state left.buf).ret = 0

instance (left : Left FindState UInt8 Event) : Decidable (Settled left) :=
  inferInstanceAs (Decidable ((commandFindBlock left.state left.buf).ret = 0))

theorem settled_iff (left : Left FindState UInt8 Event) :
    Settled left ↔ firmwareFramer.step left.state left.buf = none := by
  show _ ↔ (commandFindBlock left.state left.buf).step left.buf = none
  rw [FindResult.step, Settled]
  constructor
  · intro h
    exact if_pos h
  · intro h
    by_contra hret
    rw [if_neg hret] at h
    cases h

/-- **REPEATED CALLS END**: any run can be continued by calls until one returns 0. -/
theorem firmwareRun_settles (st : FindState) (buf : List UInt8) (acts : List (Act UInt8)) :
    ∃ n, Settled (firmwareRun st buf (acts ++ List.replicate n (.call n))) := by
  refine ⟨(firmwareRun st buf acts).buf.length, ?_⟩
  have hcalls := runs_calls (f := firmwareFramer) (s := (firmwareRun st buf acts).state)
    (le_refl (firmwareRun st buf acts).buf.length) (le_refl _)
  rw [settled_iff]
  rw [firmwareRun, runs_append]
  dsimp only
  rw [firmwareRun] at hcalls ⊢
  rw [hcalls]
  exact step_runAll _ _

/-- **FRAMING IS INDEPENDENT OF THE READS**: two runs on the same bytes, however they are split
    and whatever each call sees of them, dispatch the same blocks and send as many naks; the
    host hands on the same messages, and no call leaves 64 bytes or more. -/
theorem framing_independent_of_reads (st : FindState) (buf : List UInt8)
    {acts acts' : List (Act UInt8)} (hacts : received acts = received acts')
    (hend : Settled (firmwareRun st buf acts))
    (hend' : Settled (firmwareRun st buf acts')) {r : Reader} (hr : r.Waits)
    {inputs inputs' : List Input} (hinputs : r.stream inputs = r.stream inputs') :
    dispatched (firmwareRun st buf acts).out = dispatched (firmwareRun st buf acts').out ∧
      (firmwareRun st buf acts).out.count .nak =
        (firmwareRun st buf acts').out.count .nak ∧
      (inputEvents r inputs).2 = (inputEvents r inputs').2 ∧ ∀ called, called <+: inputs →
        (inputEvents r called).1.inputBuf.length < messageMax := by
  have hout : (firmwareRun st buf acts).out = (firmwareRun st buf acts').out :=
    firmwareFramer_resumes.runs_eq hacts ((settled_iff _).mp hend) ((settled_iff _).mp hend')
  refine ⟨by rw [hout], by rw [hout], ?_, fun called _ => (inputEvents_spec hr called).1.length_lt⟩
  rw [(inputEvents_spec hr inputs).2, (inputEvents_spec hr inputs').2, hinputs]

/-- Noise with a SYNC, and a block with one byte of payload. -/
def noisyBytes : List UInt8 := [0x01, 0x02, 0x03, 0x04, 0x05, 0x7e] ++ addFrame 0x10 [0x07]

/-- The bytes read at once. -/
def noisyActs : List (Act UInt8) := [.read noisyBytes, .call 64, .call 64]

/-- The bytes read one by one. -/
def bytewiseActs : List (Act UInt8) := noisyBytes.flatMap fun byte => [.read [byte], .call 64]

/-- The same for the host. -/
def bytewiseInputs : List Input := noisyBytes.map fun byte => .read [byte]

/-- The noise and the block, at once and byte by byte: a nak, and then the block. -/
theorem framing_independent_of_noise :
    (firmwareRun {} [] bytewiseActs).out = [.nak, .block (addFrame 0x10 [0x07])] ∧
      dispatched (firmwareRun {} [] noisyActs).out =
        dispatched (firmwareRun {} [] bytewiseActs).out ∧
      (inputEvents {} [.read noisyBytes]).2 = (inputEvents {} bytewiseInputs).2 := by
  have hacts : received noisyActs = received bytewiseActs := by decide +kernel
  have hwaits : ({} : Reader).Waits := by decide +kernel
  have hinputs : ({} : Reader).stream [.read noisyBytes] =
      ({} : Reader).stream bytewiseInputs := by decide +kernel
  have hframing := framing_independent_of_reads {} [] hacts (by decide +kernel)
    (by decide +kernel) hwaits hinputs
  exact ⟨by decide +kernel, hframing.1, hframing.2.2.1⟩

end Msgblock
