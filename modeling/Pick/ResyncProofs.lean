import Pick.FramingProofs

/-! # Back in sync after noise

Noise can look like the header of a block, and then `command_find_block`
(`src/command.c`) waits for bytes that come long after the noise.  When the test
fails it searches for a SYNC from the *first* of these bytes, so it never discards
more than the next SYNC.  The host puts a SYNC in front of what it sends again
(`retransmit_event`, `klippy/chelper/serialqueue.c`). -/

namespace Msgblock

open Framer List

/-- A block on its own that passes the tests of `command_find_block`. -/
structure ValidBlock (block : List UInt8) : Prop where
  long : messageMin ≤ block.length
  scan : scanBlock block = .block block.length

/-- None of the first `count` bytes of the stream starts a block. -/
def NoBlockStarts (count : ℕ) (stream : List UInt8) : Prop :=
  ∀ i < count, ∀ msglen, scanBlock (stream.drop i) ≠ .block msglen

theorem NoBlockStarts.drop {count n : ℕ} {stream : List UInt8}
    (h : NoBlockStarts count stream) (hn : n ≤ count) :
    NoBlockStarts (count - n) (stream.drop n) := by
  intro i hi msglen
  rw [drop_drop]
  exact h (n + i) (by omega) msglen

/-! ## A call within the noise -/

section Noise

variable {st : FindState} {g tail : List UInt8}

/-- The next SYNC is the one behind the noise, or one in it. -/
theorem idxOf_sync_noise (g tail : List UInt8) :
    ∃ i ≤ g.length, (g ++ messageSync :: tail).idxOf? messageSync = some i := by
  have happend := idxOf_sync_append g (messageSync :: tail)
  have hhead : (messageSync :: tail).idxOf? messageSync = some 0 := by
    rw [List.idxOf?, findIdx?_cons]
    rfl
  cases hg : g.idxOf? messageSync with
  | some i =>
    rw [hg, Option.some_or] at happend
    exact ⟨i, (idxOf_sync_lt hg).le, happend⟩
  | none =>
    rw [hg, Option.none_or, hhead, Option.map_some, zero_add] at happend
    exact ⟨g.length, le_refl _, happend⟩

/-- A SYNC is no length. -/
theorem scanBlock_sync (tail : List UInt8) : scanBlock (messageSync :: tail) = .error := rfl

/-- What a call on noise may do: it takes bytes up to the SYNC behind it at most,
    dispatches nothing, and is in sync again if it has taken that SYNC. -/
structure Skips (st : FindState) (g : List UInt8) (st' : FindState) (n : ℕ)
    (out : List Event) : Prop where
  pos : 0 < n
  le : n ≤ g.length + 1
  synced : n = g.length + 1 → st'.needSync = false
  sequence : st'.nextSequence = st.nextSequence
  quiet : dispatched out = []

/-- A search ends at the SYNC behind the noise at the latest. -/
theorem syncStep_skips {st' : FindState} (hseq : st'.nextSequence = st.nextSequence) :
    Skips st g (syncStep st' (g ++ messageSync :: tail)).1
      (syncStep st' (g ++ messageSync :: tail)).2.1
      (syncStep st' (g ++ messageSync :: tail)).2.2 := by
  obtain ⟨i, hi, hidx⟩ := idxOf_sync_noise g tail
  rw [syncStep_found hidx]
  refine ⟨Nat.succ_pos i, Nat.succ_le_succ hi, fun _ => rfl, hseq, ?_⟩
  dsimp only
  split
  · rfl
  · rfl

/-- **A CALL ON NOISE** and at least 64 bytes skips some of it. -/
theorem findStep_noise (htail : messageMax ≤ tail.length)
    (hnone : NoBlockStarts g.length (g ++ messageSync :: tail)) :
    ∃ st' n out, findStep st (g ++ messageSync :: tail) = some (st', n, out) ∧
      Skips st g st' n out := by
  have hmax : 64 ≤ tail.length := htail
  have hlength : (g ++ messageSync :: tail).length = g.length + (tail.length + 1) := by
    rw [length_append, length_cons]
  have hne : g ++ messageSync :: tail ≠ [] := by
    rw [← length_pos_iff]
    omega
  by_cases hsync : st.needSync = true
  · rw [findStep_searching hne hsync]
    exact ⟨_, _, _, rfl, syncStep_skips rfl⟩
  · have hsync' : ¬ (g ++ messageSync :: tail ≠ [] ∧ st.needSync = true) := fun h => hsync h.2
    have hmin : messageMin ≤ (g ++ messageSync :: tail).length := by
      show 5 ≤ _
      omega
    cases hscan : scanBlock (g ++ messageSync :: tail) with
    | needMoreData =>
      have hshort : _ < 64 := scanBlock_needMoreData hscan
      omega
    | error =>
      rw [findStep_error hsync' hmin hscan]
      by_cases hlead : (g ++ messageSync :: tail).getD 0 0 = messageSync
      · rw [if_pos hlead]
        refine ⟨st, 1, [], rfl, Nat.one_pos, by omega, fun _ => ?_, rfl, rfl⟩
        exact Bool.eq_false_iff.mpr hsync
      · rw [if_neg hlead]
        exact ⟨_, _, _, rfl, syncStep_skips rfl⟩
    | block msglen =>
      -- no block starts here
      cases g with
      | nil => exact nomatch (scanBlock_sync tail).symm.trans hscan
      | cons byte g => exact absurd hscan (hnone 0 (Nat.succ_pos _) msglen)

end Noise

/-! ## The block behind it -/

theorem dispatched_append (out out' : List Event) :
    dispatched (out ++ out') = dispatched out ++ dispatched out' :=
  filterMap_append

/-- The block that is expected is taken at once. -/
theorem runAll_block {st : FindState} {block rest : List UInt8} (hblock : ValidBlock block)
    (hsync : st.needSync = false) (hseq : block.getD 1 0 = st.nextSequence) :
    (dispatched (runAll firmwareFramer st (block ++ rest)).out).head? = some block := by
  have hmin : messageMin ≤ (block ++ rest).length := by
    rw [length_append]
    exact Nat.le_add_right_of_le hblock.long
  have hlong : 5 ≤ block.length := hblock.long
  have hscan := scanBlock_append rest hblock.long hblock.scan nofun
  have hexpected : ¬ (block ++ rest).getD 1 0 ≠ st.nextSequence := by
    rw [getD_append _ _ _ _ (by omega)]
    exact not_not.mpr hseq
  have hsync' : ¬ (block ++ rest ≠ [] ∧ st.needSync = true) := fun h => nomatch hsync.symm.trans h.2
  have hstep := findStep_block hsync' hmin hscan
  rw [if_neg hexpected, take_left] at hstep
  rw [runAll_some (f := firmwareFramer) hstep, dispatched_append]
  rfl

/-- **NOISE, A SYNC AND A BLOCK**: the first block that is dispatched is this one.
    The induction is on the noise that is left. -/
theorem runAll_resync {block rest : List UInt8} (hblock : ValidBlock block)
    (hrest : messageMax ≤ rest.length) {st : FindState}
    (hseq : block.getD 1 0 = st.nextSequence) {g : List UInt8}
    (hnone : NoBlockStarts g.length (g ++ messageSync :: (block ++ rest))) :
    (dispatched
      (runAll firmwareFramer st (g ++ messageSync :: (block ++ rest))).out).head? = some block := by
  induction hlen : g.length using Nat.strongRecOn generalizing st g with
  | ind len ih =>
    have htail : messageMax ≤ (block ++ rest).length := by
      rw [length_append]
      exact Nat.le_add_left_of_le hrest
    obtain ⟨st', n, out, hstep, hskips⟩ := @findStep_noise st _ _ htail hnone
    have hpos := hskips.pos
    have hle := hskips.le
    rw [runAll_some (f := firmwareFramer) hstep, dispatched_append, hskips.quiet, nil_append]
    by_cases hn : n ≤ g.length
    · rw [drop_append_of_le_length hn]
      have hnone' := hnone.drop hn
      rw [drop_append_of_le_length hn, ← length_drop] at hnone'
      refine ih (g.drop n).length ?_ (hseq.trans hskips.sequence.symm) hnone' rfl
      rw [length_drop]
      omega
    · obtain rfl : n = g.length + 1 := by omega
      rw [drop_length_add_append, drop_one, tail_cons]
      exact runAll_block hblock (hskips.synced rfl) (hseq.trans hskips.sequence.symm)

/-- What a run has dispatched is a first part of what the whole stream gives. -/
theorem firmwareRun_prefix (st : FindState) (buf : List UInt8) (acts : List (Act UInt8))
    (more : List UInt8) :
    dispatched (firmwareRun st buf acts).out <+:
      dispatched (runAll firmwareFramer st (buf ++ received acts ++ more)).out := by
  rw [firmwareFramer_resumes.runAll_append, ← firmwareFramer_resumes.runs acts st buf,
    append_assoc, dispatched_append]
  exact prefix_append _ _

/-- **BACK IN SYNC AFTER NOISE**: in every run on noise `g` in which no block starts, a SYNC, a
    valid `block` and at least 64 bytes more, from every sync state, nothing or `block` is
    dispatched first, and `block` once the calls are repeated until one returns 0. -/
theorem resynchronises_after_noise (st : FindState) {g block rest : List UInt8}
    (hblock : ValidBlock block) (hseq : block.getD 1 0 = st.nextSequence)
    (hrest : messageMax ≤ rest.length)
    (hnone : NoBlockStarts g.length (g ++ messageSync :: (block ++ rest)))
    {buf : List UInt8} {acts : List (Act UInt8)}
    (hstream : buf ++ received acts <+: g ++ messageSync :: (block ++ rest)) :
    (dispatched (firmwareRun st buf acts).out = [] ∨
        (dispatched (firmwareRun st buf acts).out).head? = some block) ∧
      (buf ++ received acts = g ++ messageSync :: (block ++ rest) →
        (Settled (firmwareRun st buf acts) →
          (dispatched (firmwareRun st buf acts).out).head? = some block) ∧
        ∃ n, Settled (firmwareRun st buf (acts ++ List.replicate n (.call n)))) := by
  have hfirst := runAll_resync hblock hrest hseq hnone
  refine ⟨?_, fun hall => ⟨fun hend => ?_, firmwareRun_settles st buf acts⟩⟩
  · obtain ⟨more, hmore⟩ := hstream
    have hprefix := firmwareRun_prefix st buf acts more
    rw [hmore] at hprefix
    cases hout : dispatched (firmwareRun st buf acts).out with
    | nil => exact .inl rfl
    | cons first blocks =>
      rw [hout] at hprefix
      obtain ⟨later, hlater⟩ := hprefix
      rw [← hlater] at hfirst
      exact .inr hfirst
  · have hwaits := (settled_iff _).mp hend
    rw [firmwareRun] at hwaits ⊢
    have hout := firmwareFramer_resumes.runs acts st buf
    rw [runAll_none hwaits, append_nil, hall] at hout
    rw [hout]
    exact hfirst

/-- A header that asks for 20 bytes, a SYNC, a block within these, and 64 bytes. -/
def headerNoise : List UInt8 :=
  [0x14, 0x10, 0x55] ++ messageSync :: (addFrame 0x10 [0x07] ++ List.replicate 64 0x00)

/-- All read at once, then seven calls. -/
def headerActs : List (Act UInt8) := .read headerNoise :: List.replicate 7 (.call 64)

theorem resynchronises_after_header :
    dispatched (firmwareRun {} [] (headerActs.take 2)).out = [] ∧
      (dispatched (firmwareRun {} [] headerActs).out).head? = some (addFrame 0x10 [0x07]) := by
  have hblock : ValidBlock (addFrame 0x10 [0x07]) := ⟨by decide +kernel, by decide +kernel⟩
  have hrest : messageMax ≤ (List.replicate 64 (0x00 : UInt8)).length := by decide
  have hscan : ∀ i < 3, scanBlock (headerNoise.drop i) = .error := by decide +kernel
  have hnone : NoBlockStarts 3 headerNoise := by
    intro i hi msglen
    rw [hscan i hi]
    exact nofun
  have hall : [] ++ received headerActs = headerNoise := by decide +kernel
  have hstream : [] ++ received headerActs <+: headerNoise := hall ▸ prefix_refl _
  have hmain := @resynchronises_after_noise {} [0x14, 0x10, 0x55] _ _ hblock rfl hrest
    hnone [] headerActs hstream
  exact ⟨by decide +kernel, (hmain.2 hall).1 (by decide +kernel)⟩

end Msgblock
