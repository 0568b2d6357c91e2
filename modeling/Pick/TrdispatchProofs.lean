import Pick.NumberProofs
import Pick.EarliestProofs
import Pick.WordProofs

/-! # Trigger synchronisation (`klippy/chelper/trdispatch.c`)

During a trigger test every micro-controller stops by itself at its
`expire_clock`.  The host moves these deadlines on as reports come in, each
after the reports of the *other* micro-controllers, so that one that falls
silent stops the rest.

The times come from a single pass that keeps the two lowest report times and whose
the lowest is.

Whether a deadline is moved on far enough is decided by a comparison of a
signed with an unsigned number, which C makes unsigned: a deadline that would
move *back* counts as one moved on by almost 2^64 ticks. -/

namespace Trdispatch

open Double List Lowest

variable {K : Type} [Field K] [LinearOrder K]

/-! ## Clock estimates (`klippy/chelper/msgblock.c`) -/

/-- `struct clock_estimate`. -/
structure ClockEstimate (K : Type) where
  lastClock : UInt64
  convClock : UInt64
  convTime : K
  estFreq : K

/-- `clock_from_clock32`. -/
def clockFromClock32 (ce : ClockEstimate K) (clock32 : UInt32) : UInt64 :=
  ce.lastClock + UInt64.ofInt (clock32 - ce.lastClock.toUInt32).toInt32.toInt

section Estimate

variable [IsStrictOrderedRing K] [FloorRing K] (ce : ClockEstimate K)

/-- `clock_to_time`. -/
def clockToTime (clock : UInt64) : K :=
  rounded (ce.convTime + rounded (rounded ((clock - ce.convClock).toInt64.toInt : K) / ce.estFreq))

/-- The ticks from the estimate's own clock to a time. -/
def ticksFromTime (time : K) : ℤ :=
  truncate (rounded (rounded (rounded (time - ce.convTime) * ce.estFreq) + 1 / 2))

/-- `clock_from_time`. -/
def clockFromTime (time : K) : UInt64 := UInt64.ofInt (ticksFromTime ce time) + ce.convClock

/-- What the time since the estimate's own can be off after it is rounded. -/
def roundingError (time : K) : K := |time - ce.convTime| / 2 ^ 53 + 2 ^ (-1075 : ℤ)

variable {ce} {time : K} (hfreq : 0 ≤ ce.estFreq)
include hfreq

/-- **WHAT ROUNDING ALLOWS**: a clock is reached by each time that is, less the error of
    the one difference, at most half a tick before it. -/
theorem le_ticksFromTime {d : ℤ} (hd : |d| < 2 ^ 52)
    (h : d - 1 / 2 ≤ (time - ce.convTime - roundingError ce time) * ce.estFreq) :
    d ≤ ticksFromTime ce time := by
  have hd' := abs_lt.mp hd
  have herror := (abs_le.mp (abs_rounded_sub_le (time - ce.convTime))).1
  have hproduct : (d : K) - 1 / 2 ≤ rounded (time - ce.convTime) * ce.estFreq := by
    refine h.trans (mul_le_mul_of_nonneg_right ?_ hfreq)
    rw [roundingError]
    linarith
  have hhalf : IsDouble ((d : K) - 1 / 2) :=
    ⟨2 * d - 1, -1, abs_le.mpr ⟨by omega, by omega⟩, by decide, by push_cast; ring⟩
  have hsum : (d : K) ≤ rounded (rounded (time - ce.convTime) * ce.estFreq) + 1 / 2 := by
    linarith [hhalf.le_rounded hproduct]
  exact le_truncate ((isDouble_int (by omega)).le_rounded hsum)

theorem ticksFromTime_le (h : (time - ce.convTime + roundingError ce time) * ce.estFreq ≤ 2 ^ 61) :
    ticksFromTime ce time ≤ 2 ^ 62 := by
  have herror := (abs_le.mp (abs_rounded_sub_le (time - ce.convTime))).2
  have hproduct : rounded (time - ce.convTime) * ce.estFreq ≤ 2 ^ 61 := by
    refine le_trans (mul_le_mul_of_nonneg_right ?_ hfreq) h
    rw [roundingError]
    linarith
  have hpower : ∀ e : ℕ, IsDouble (2 ^ e : K) := fun e =>
    ⟨1, e, by decide, by omega, by rw [Int.cast_one, one_mul, zpow_natCast]⟩
  have hsum : rounded (rounded (time - ce.convTime) * ce.estFreq) + 1 / 2 ≤ 2 ^ 62 := by
    linarith [(hpower 61).rounded_le hproduct]
  refine truncate_le (((hpower 62).rounded_le hsum).trans_eq ?_)
  norm_num

end Estimate

-- so far from zero the times are two ticks apart, and clock 1004 comes back as 1003
example : ticksFromTime (⟨0, 0, 20000000, 520000000⟩ : ClockEstimate ℚ)
    (clockToTime ⟨0, 0, 20000000, 520000000⟩ 1004) = 1003 := by decide +kernel

/-! ## The two lowest report times -/

/-- `PR_NEVER`. -/
def prNever : K := 9999999999999999

/-- The variables of the pass; `minTdm` is a position in `tdm_list`. -/
structure Scan (K : Type) where
  minTime : K
  nextMinTime : K
  minTdm : Option ℕ

/-- Before the pass. -/
def Scan.initial : Scan K := ⟨prNever, prNever, none⟩

/-- One report. -/
def Scan.step (s : Scan K) (m : ℕ) (statusTime : K) : Scan K :=
  if statusTime < s.nextMinTime then
    if statusTime < s.minTime then ⟨statusTime, s.minTime, some m⟩
    else { s with nextMinTime := statusTime }
  else s

/-- The pass over the report times from position `m` on. -/
def Scan.run (s : Scan K) : ℕ → List K → Scan K
  | _, [] => s
  | m, statusTime :: rest => (s.step m statusTime).run (m + 1) rest

/-- The time that the new deadline of the micro-controller at position `m` is computed from. -/
def candidateTime (statusTimes : List K) (m : ℕ) : K :=
  let s := Scan.initial.run 0 statusTimes
  let nextMinTime := if s.nextMinTime = prNever then s.minTime else s.nextMinTime
  if s.minTdm = some m then nextMinTime else s.minTime

/-- What the pass knows of the times it has seen. -/
structure Scan.Tracks (s : Scan K) (seen : List K) : Prop where
  minTime_eq : s.minTime = lowest prNever seen
  none_eq : s.minTdm = none → s.minTime = prNever ∧ s.nextMinTime = prNever
  some_eq : ∀ i, s.minTdm = some i →
    seen[i]? = some s.minTime ∧ s.nextMinTime = lowest prNever (seen.eraseIdx i)

variable {s : Scan K} {seen : List K}

theorem Scan.tracks_initial : (Scan.initial : Scan K).Tracks [] where
  minTime_eq := rfl
  none_eq _ := ⟨rfl, rfl⟩
  some_eq _ h := nomatch h

theorem Scan.Tracks.minTime_le (h : s.Tracks seen) : s.minTime ≤ s.nextMinTime := by
  cases howner : s.minTdm with
  | none =>
    obtain ⟨hmin, hnext⟩ := h.none_eq howner
    rw [hmin, hnext]
  | some i =>
    rw [h.minTime_eq, (h.some_eq i howner).2]
    exact lowest_le_lowest_eraseIdx seen i

theorem Scan.Tracks.step (h : s.Tracks seen) (t : K) :
    (s.step seen.length t).Tracks (seen ++ [t]) := by
  have hseen : lowest prNever (seen ++ [t]) = min s.minTime t := by
    rw [lowest_append_singleton, h.minTime_eq]
  -- what is appended comes behind the lowest one
  have hbehind : ∀ i, s.minTdm = some i →
      (seen ++ [t])[i]? = some s.minTime ∧
        lowest prNever ((seen ++ [t]).eraseIdx i) = min s.nextMinTime t := by
    intro i hi
    obtain ⟨hget, hnext⟩ := h.some_eq i hi
    obtain ⟨hlt, -⟩ := List.getElem?_eq_some_iff.mp hget
    rw [getElem?_append_left hlt, eraseIdx_append_of_lt_length hlt, lowest_append_singleton, hnext]
    exact ⟨hget, rfl⟩
  rw [Scan.step]
  split
  · next hnext =>
    split
    · next hmin =>
      refine ⟨?_, nofun, ?_⟩
      · rw [hseen, min_eq_right hmin.le]
      · rintro i ⟨⟩
        refine ⟨getElem?_concat_length, ?_⟩
        show s.minTime = _
        rw [eraseIdx_append_of_length_le le_rfl, Nat.sub_self,
          eraseIdx_cons_zero, append_nil, h.minTime_eq]
    · next hmin =>
      refine ⟨?_, fun hnone => ?_, fun i hi => ?_⟩
      · rw [hseen, min_eq_left (not_lt.mp hmin)]
      · -- without a lowest time both are `PR_NEVER`
        obtain ⟨h₁, h₂⟩ := h.none_eq hnone
        rw [h₂, ← h₁] at hnext
        exact absurd hnext hmin
      · refine ⟨(hbehind i hi).1, ?_⟩
        rw [(hbehind i hi).2, min_eq_right hnext.le]
  · next hnext =>
    have hle : s.nextMinTime ≤ t := not_lt.mp hnext
    refine ⟨?_, h.none_eq, fun i hi => ⟨(hbehind i hi).1, ?_⟩⟩
    · rw [hseen, min_eq_left (h.minTime_le.trans hle)]
    · rw [(hbehind i hi).2, min_eq_left hle]

theorem Scan.Tracks.run (h : s.Tracks seen) (rest : List K) :
    (s.run seen.length rest).Tracks (seen ++ rest) := by
  induction rest generalizing s seen with
  | nil =>
    rw [append_nil]
    exact h
  | cons t rest ih =>
    have hrest := ih (h.step t)
    rwa [length_append, length_singleton, append_assoc] at hrest

/-- The report time a deadline should follow: the earliest of the others, or of all if those
    have none. -/
def followedTime (statusTimes : List K) (m : ℕ) : K :=
  if lowest prNever (statusTimes.eraseIdx m) < prNever then
    lowest prNever (statusTimes.eraseIdx m)
  else lowest prNever statusTimes

theorem candidateTime_eq (statusTimes : List K) (m : ℕ) :
    candidateTime statusTimes m = followedTime statusTimes m := by
  have h : (Scan.initial.run 0 statusTimes).Tracks statusTimes :=
    Scan.tracks_initial.run statusTimes
  rw [candidateTime, followedTime]
  generalize Scan.initial.run 0 statusTimes = s at h
  by_cases howner : s.minTdm = some m
  · obtain ⟨-, hnext⟩ := h.some_eq m howner
    have hnever : lowest prNever (statusTimes.eraseIdx m) ≤ prNever := lowest_le_never _
    show (if s.minTdm = some m then _ else _) = _
    rw [if_pos howner, hnext, h.minTime_eq]
    rcases eq_or_lt_of_le hnever with heq | hlt
    · rw [if_pos heq, if_neg heq.not_lt]
    · rw [if_neg hlt.ne, if_pos hlt]
  · show (if s.minTdm = some m then _ else _) = _
    rw [if_neg howner]
    split
    · next hlt =>
      refine le_antisymm ?_ ?_
      · rw [h.minTime_eq]
        exact lowest_le_lowest_eraseIdx statusTimes m
      · cases hsome : s.minTdm with
        | none => exact (lowest_le_never _).trans (h.none_eq hsome).1.ge
        | some i =>
          -- the lowest time is another one's
          have hne : i ≠ m := fun heq => howner (heq ▸ hsome)
          refine lowest_le_of_mem ?_
          exact mem_eraseIdx_iff_getElem?.mpr ⟨i, hne, (h.some_eq i hsome).1⟩
    · exact h.minTime_eq

/-- **A SILENT ONE STOPS THE OTHERS**: with another report below `PR_NEVER` the deadline is
    computed from the earliest of the others; a single one has its own. -/
theorem candidateTime_others (statusTimes : List K) (m : ℕ) :
    ((∃ t ∈ statusTimes.eraseIdx m, t < prNever) →
      IsLeast {t | t ∈ statusTimes.eraseIdx m} (candidateTime statusTimes m) ∧
        ∀ t, candidateTime (statusTimes.set m t) m = candidateTime statusTimes m) ∧
      ∀ t < (prNever : K), candidateTime [t] 0 = t := by
  refine ⟨?_, fun t ht => ?_⟩
  · rintro ⟨t, hmem, hlt⟩
    have hlow := lowest_lt_of_mem hmem hlt
    have hcandidate : candidateTime statusTimes m = lowest prNever (statusTimes.eraseIdx m) := by
      rw [candidateTime_eq, followedTime, if_pos hlow]
    refine ⟨hcandidate ▸ isLeast_lowest hlow, fun t' => ?_⟩
    rw [candidateTime_eq, followedTime, eraseIdx_set_eq, if_pos hlow, hcandidate]
  · rw [candidateTime_eq, followedTime, eraseIdx_cons_zero, lowest_nil,
      if_neg (lt_irrefl _), lowest_cons, lowest_nil, min_eq_left ht.le]

/-- Two that report at the same time, behind a third. -/
theorem candidateTime_others_tie :
    IsLeast {t | t ∈ [(3 : ℚ), 1, 1].eraseIdx 1} (candidateTime [3, 1, 1] 1) ∧
      candidateTime [(7 : ℚ)] 0 = 7 :=
  ⟨((candidateTime_others [(3 : ℚ), 1, 1] 1).1 ⟨1, by decide +kernel, by decide +kernel⟩).1,
    (candidateTime_others [(3 : ℚ), 1, 1] 1).2 7 (by decide +kernel)⟩

/-- At `PR_NEVER` the only other time is taken for none. -/
theorem candidateTime_own_at_never :
    ¬ IsLeast {t | t ∈ [(1 : ℚ), prNever].eraseIdx 0} (candidateTime [1, prNever] 0) := by
  intro h
  have hmem := h.1
  revert hmem
  show ¬ candidateTime [(1 : ℚ), prNever] 0 ∈ [(1 : ℚ), prNever].eraseIdx 0
  decide +kernel

/-! ## Messages -/

section Dispatch

variable [IsStrictOrderedRing K] [FloorRing K]

/-- `struct trdispatch_mcu`. -/
structure Mcu (K : Type) where
  trsyncOid : UInt32
  lastStatusClock : UInt64
  expireClock : UInt64
  expireTicks : UInt64
  minExtendTicks : UInt64
  ce : ClockEstimate K

/-- What the host sends to the micro-controller `mcu`; a timeout is kept with the one before and
    the least extension. -/
inductive Sent where
  | trigger (mcu : ℕ) (reason : UInt32)
  | setTimeout (mcu : ℕ) (previous minExtendTicks clock : UInt64)
  deriving DecidableEq

/-- `struct trdispatch`, and what has been sent. -/
structure Dispatch (K : Type) where
  tdmList : List (Mcu K)
  canTrigger : Bool
  dispatchReason : UInt32
  sent : List Sent

/-- The fields of a `trsync_state` message that are read. -/
structure StateFields where
  oid : UInt32
  canTrigger : UInt32
  clock : UInt32

/-- A message to the parser of the micro-controller at position `mcu`, if it can
    be decoded, and the clock estimate of its serial queue at that time. -/
structure Message (K : Type) where
  mcu : ℕ
  fields : Option StateFields
  ce : ClockEstimate K

/-- The time of the last report. -/
def Mcu.statusTime (m : Mcu K) : K := clockToTime m.ce m.lastStatusClock

/-- The new deadline, from a report time. -/
def Mcu.expire (m : Mcu K) (statusTime : K) : UInt64 :=
  clockFromTime m.ce statusTime + m.expireTicks

/-- A message is not used, says that its micro-controller has stopped, or is a report. -/
inductive Taken (K : Type) where
  | unused
  | stopped
  | report (tdmList : List (Mcu K))

/-- The tests of `handle_trsync_state`. -/
def Dispatch.take (td : Dispatch K) (msg : Message K) : Taken K :=
  match td.tdmList[msg.mcu]?, msg.fields with
  | some tdm, some fields =>
    if fields.oid ≠ tdm.trsyncOid then .unused
    else if td.canTrigger = false then .unused
    else if fields.canTrigger = 0 then .stopped
    else .report (td.tdmList.set msg.mcu
      { tdm with
        ce := msg.ce
        lastStatusClock := clockFromClock32 msg.ce fields.clock })
  | _, _ => .unused

/-- The pass that moves the deadlines on, from position `m` on.  The signed
    difference is converted back for the comparison with an unsigned number. -/
def extendTimeouts (statusTimes : List K) : ℕ → List (Mcu K) →
    List (Mcu K) × List Sent
  | _, [] => ([], [])
  | m, tdm :: rest =>
    let expire := tdm.expire (candidateTime statusTimes m)
    let (rest, sent) := extendTimeouts statusTimes (m + 1) rest
    if (expire - tdm.expireClock).toInt64.toUInt64 ≥ tdm.minExtendTicks then
      ({ tdm with expireClock := expire } :: rest,
        .setTimeout m tdm.expireClock tdm.minExtendTicks expire :: sent)
    else (tdm :: rest, sent)

/-- `handle_trsync_state`. -/
def Dispatch.handleTrsyncState (td : Dispatch K) (msg : Message K) : Dispatch K :=
  match td.take msg with
  | .unused => td
  | .stopped =>
    { td with
      canTrigger := false
      sent := td.sent ++ (List.range td.tdmList.length).map (.trigger · td.dispatchReason) }
  | .report tdmList =>
    let (tdmList, sent) := extendTimeouts (tdmList.map Mcu.statusTime) 0 tdmList
    { td with tdmList := tdmList, sent := td.sent ++ sent }

/-- A run of messages. -/
def Dispatch.run (td : Dispatch K) (msgs : List (Message K)) : Dispatch K :=
  msgs.foldl Dispatch.handleTrsyncState td

/-! ## Deadlines that move forward -/

/-- A new timeout is at least the least extension later than the one before. -/
def Sent.Extends : Sent → Prop
  | .trigger _ _ => True
  | .setTimeout _ previous minExtendTicks clock =>
    (minExtendTicks.toNat : ℤ) ≤ (clock - previous).toInt64.toInt

/-- All timeouts sent extend the ones before. -/
def Dispatch.Forward (td : Dispatch K) : Prop := ∀ x ∈ td.sent, x.Extends

/-- How far the present deadline's report clock is from the estimate's own. -/
def Mcu.reportTicks (tdm : Mcu K) : ℤ :=
  (tdm.expireClock - tdm.expireTicks - tdm.ce.convClock).toInt64.toInt

/-- On the micro-controller's own estimate the clock behind the deadline is less than half a
    tick later than a report time, and the numbers stay where the conversions are right. -/
structure Mcu.InReach (tdm : Mcu K) (t : K) : Prop where
  freq : 0 ≤ tdm.ce.estFreq
  near : |tdm.reportTicks| < 2 ^ 52
  reached : tdm.reportTicks - 1 / 2 ≤
    (t - tdm.ce.convTime - roundingError tdm.ce t) * tdm.ce.estFreq
  below : (t - tdm.ce.convTime + roundingError tdm.ce t) * tdm.ce.estFreq ≤ 2 ^ 61

instance (tdm : Mcu K) (t : K) : Decidable (tdm.InReach t) :=
  decidable_of_iff (0 ≤ tdm.ce.estFreq ∧ |tdm.reportTicks| < 2 ^ 52 ∧
      tdm.reportTicks - 1 / 2 ≤ (t - tdm.ce.convTime - roundingError tdm.ce t) * tdm.ce.estFreq ∧
      (t - tdm.ce.convTime + roundingError tdm.ce t) * tdm.ce.estFreq ≤ 2 ^ 61)
    ⟨fun ⟨h₁, h₂, h₃, h₄⟩ => ⟨h₁, h₂, h₃, h₄⟩, fun ⟨h₁, h₂, h₃, h₄⟩ => ⟨h₁, h₂, h₃, h₄⟩⟩

/-- After a report every deadline is in reach of the reports. -/
def Taken.InReach : Taken K → Prop
  | .unused => True
  | .stopped => True
  | .report tdmList => ∀ tdm ∈ tdmList.zipIdx,
      tdm.1.InReach (followedTime (tdmList.map Mcu.statusTime) tdm.2)

instance : (taken : Taken K) → Decidable taken.InReach
  | .unused => .isTrue trivial
  | .stopped => .isTrue trivial
  | .report tdmList => inferInstanceAs (Decidable (∀ tdm ∈ tdmList.zipIdx,
      tdm.1.InReach (followedTime (tdmList.map Mcu.statusTime) tdm.2)))

/-- So it is for every report of a run. -/
def Dispatch.AllInReach : Dispatch K → List (Message K) → Prop
  | _, [] => True
  | td, msg :: msgs => (td.take msg).InReach ∧ (td.handleTrsyncState msg).AllInReach msgs

variable {td : Dispatch K} {msg : Message K}

/-- A deadline in reach does not move back. -/
theorem Mcu.InReach.expire_sub_lt {tdm : Mcu K} {t : K} (h : tdm.InReach t) :
    (tdm.expire t - tdm.expireClock).toNat < 2 ^ 63 := by
  have hge := le_ticksFromTime h.freq h.near h.reached
  have hle := ticksFromTime_le h.freq h.below
  have hnear := (abs_lt.mp h.near).1
  have hexpire : tdm.expire t - tdm.expireClock = UInt64.ofInt (ticksFromTime tdm.ce t) -
      (tdm.expireClock - tdm.expireTicks - tdm.ce.convClock) := by
    rw [Mcu.expire, clockFromTime]
    grind
  have hticks : ((UInt64.ofInt (ticksFromTime tdm.ce t)).toNat : ℤ) =
      ticksFromTime tdm.ce t % 2 ^ 64 := by
    rw [UInt64.ofInt, UInt64.toNat_ofNat']
    omega
  rw [Mcu.reportTicks, Words.toInt_toInt64] at hge hnear
  rw [hexpire, UInt64.toNat_sub]
  have hlt := (tdm.expireClock - tdm.expireTicks - tdm.ce.convClock).toNat_lt
  split at hge
  · omega
  · omega

/-- What passes the unsigned comparison is then a real extension. -/
theorem Mcu.InReach.extends {tdm : Mcu K} {t : K} (h : tdm.InReach t) (m : ℕ)
    (hpass : (tdm.expire t - tdm.expireClock).toInt64.toUInt64 ≥ tdm.minExtendTicks) :
    (Sent.setTimeout m tdm.expireClock tdm.minExtendTicks (tdm.expire t)).Extends := by
  rw [UInt64.toUInt64_toInt64, ge_iff_le, UInt64.le_iff_toNat_le] at hpass
  rw [Sent.Extends, Words.toInt_toInt64, if_pos h.expire_sub_lt]
  exact Int.ofNat_le.mpr hpass

theorem extendTimeouts_extends {statusTimes : List K} {m : ℕ} {tdmList : List (Mcu K)}
    (h : ∀ tdm ∈ tdmList.zipIdx m, tdm.1.InReach (followedTime statusTimes tdm.2)) :
    ∀ x ∈ (extendTimeouts statusTimes m tdmList).2, x.Extends := by
  induction tdmList generalizing m with
  | nil => exact nofun
  | cons tdm rest ih =>
    rw [zipIdx_cons, forall_mem_cons] at h
    rw [extendTimeouts]
    dsimp only
    split
    · next hpass =>
      rw [candidateTime_eq] at hpass ⊢
      exact forall_mem_cons.mpr ⟨h.1.extends m hpass, ih h.2⟩
    · exact ih h.2

theorem forward_handleTrsyncState (hforward : td.Forward)
    (hreach : (td.take msg).InReach) : (td.handleTrsyncState msg).Forward := by
  rw [Dispatch.handleTrsyncState]
  cases htake : td.take msg with
  | unused => exact hforward
  | stopped =>
    refine forall_mem_append.mpr ⟨hforward, fun x hx => ?_⟩
    obtain ⟨m, -, rfl⟩ := mem_map.mp hx
    trivial
  | report tdmList =>
    rw [htake] at hreach
    exact forall_mem_append.mpr ⟨hforward, extendTimeouts_extends hreach⟩

/-- **DEADLINES MOVE FORWARD**: in a run every new timeout extends the one before by at least
    `min_extend_ticks`, if at each report every deadline is in reach of the reports. -/
theorem timeouts_extend {msgs : List (Message K)} (hforward : td.Forward)
    (hreach : td.AllInReach msgs) : (td.run msgs).Forward := by
  induction msgs generalizing td with
  | nil => exact hforward
  | cons msg msgs ih => exact ih (forward_handleTrsyncState hforward hreach.1) hreach.2

end Dispatch

/-- Two micro-controllers at 1 MHz at the start of a test, with a deadline 25 ms after it. -/
def startOfTest : Dispatch ℚ where
  tdmList :=
    [⟨0, 1000000, 1025000, 25000, 6000, ⟨1000000, 1000000, 1, 1000000⟩⟩,
     ⟨0, 1000000, 1025000, 25000, 6000, ⟨1000000, 1000000, 1, 1000000⟩⟩]
  canTrigger := true
  dispatchReason := 2
  sent := []

/-- Both report, and each moves the other's deadline on. -/
theorem timeouts_extend_both :
    (startOfTest.run
      [⟨0, some ⟨0, 1, 1007500⟩, ⟨1000000, 1000000, 1, 1000000⟩⟩,
       ⟨1, some ⟨0, 1, 1007600⟩, ⟨1000000, 1000000, 1, 1000000⟩⟩]).sent =
      [.setTimeout 1 1025000 6000 1032500, .setTimeout 0 1025000 6000 1032600] ∧
    (startOfTest.run
      [⟨0, some ⟨0, 1, 1007500⟩, ⟨1000000, 1000000, 1, 1000000⟩⟩,
       ⟨1, some ⟨0, 1, 1007600⟩, ⟨1000000, 1000000, 1, 1000000⟩⟩]).Forward := by
  exact ⟨by decide +kernel, timeouts_extend nofun ⟨by decide +kernel, by decide +kernel, trivial⟩⟩

/-- The first one reports after its clock estimate went back by one tick: its deadline follows. -/
theorem timeout_moves_back :
    ¬ (startOfTest.run [⟨0, some ⟨0, 1, 1007500⟩, ⟨1000000, 999999, 1, 1000000⟩⟩]).Forward := by
  intro h
  have hback := h (.setTimeout 0 1025000 6000 1024999) (by decide +kernel)
  revert hback
  show ¬ ((6000 : UInt64).toNat : ℤ) ≤ ((1024999 : UInt64) - 1025000).toInt64.toInt
  decide +kernel

end Trdispatch
