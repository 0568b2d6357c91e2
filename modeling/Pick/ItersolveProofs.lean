import Pick.TrapqRunProofs

/-! # Step generation (`klippy/chelper/itersolve.c`)

`itersolve_generate_steps` walks over the moves of a `trapq` up to a flush time and
asks for the steps of ranges of time: of the moves the stepper is active in, of a time
before and of a time after each of them.  Here the ranges are what a call returns; the
search for the steps within a range is not part of it. -/

namespace Itersolve

open List Span Trapq

variable {K : Type} [Field K] [LinearOrder K]

/-! ## Model -/

/-- `AF_X`, `AF_Y`, `AF_Z`. -/
def afX : UInt32 := (1 : UInt32) <<< 0

/-- `AF_Y`. -/
def afY : UInt32 := (1 : UInt32) <<< 1

/-- `AF_Z`. -/
def afZ : UInt32 := (1 : UInt32) <<< 2

/-- `struct stepper_kinematics`. -/
structure Kinematics (K : Type) where
  lastFlushTime : K
  lastMoveTime : K
  activeFlags : UInt32
  genStepsPreActive : K
  genStepsPostActive : K

/-- `check_active`. -/
def CheckActive (sk : Kinematics K) (m : Move K) : Prop :=
  (sk.activeFlags &&& afX ≠ 0 ∧ m.axesR.x ≠ 0) ∨ (sk.activeFlags &&& afY ≠ 0 ∧ m.axesR.y ≠ 0) ∨
    (sk.activeFlags &&& afZ ≠ 0 ∧ m.axesR.z ≠ 0)

instance (sk : Kinematics K) (m : Move K) : Decidable (CheckActive sk m) :=
  inferInstanceAs (Decidable (_ ∨ _ ∨ _))

/-- The arguments of a call of `itersolve_gen_steps_range`. -/
structure Range (K : Type) where
  move : Move K
  absStart : K
  absEnd : K

/-- `start` and `end`, in the time of the move, as `itersolve_gen_steps_range` clips them. -/
def Range.start (r : Range K) : K :=
  let start := r.absStart - r.move.printTime
  if start < 0 then 0 else start

/-- The end of a range in its move. -/
def Range.stop (r : Range K) : K :=
  let stop := r.absEnd - r.move.printTime
  if stop > r.move.moveT then r.move.moveT else stop

/-- The walk back from a move: `skip` moves at most, until one starts by `absStart`. -/
def leadIn (absStart : K) : Nat → List (Move K) → List (Move K) → Option (List (Move K))
  | _, [], _ => none
  | skip, pm :: before, after =>
    if skip - 1 ≠ 0 ∧ pm.printTime > absStart then
      leadIn absStart (skip - 1) before (pm :: after)
    else some (pm :: after)

/-- The steps leading up to `m`. -/
def leads (sk : Kinematics K) (lastFlushTime flushTime forceStepsTime : K)
    (before : List (Move K)) (skip : Nat) (m : Move K) : Option (List (Range K)) :=
  if skip ≠ 0 ∧ sk.genStepsPreActive ≠ 0 then
    let absStart := max (max (m.printTime - sk.genStepsPreActive) lastFlushTime) forceStepsTime
    (leadIn absStart skip before []).map (List.map fun pm => ⟨pm, absStart, flushTime⟩)
  else some []

/-- What a call leaves behind. -/
structure Generated (K : Type) where
  lastMoveTime : K
  ranges : List (Range K)

/-- With the ranges before. -/
def Generated.prepend (ranges : List (Range K)) (g : Generated K) : Generated K :=
  { g with ranges := ranges ++ g.ranges }

/-- The loop of `itersolve_generate_steps`, at the first move of the list, with those
    `before` it, the last one first.  It is `none` when it leaves the list. -/
def generate (sk : Kinematics K) (lastFlushTime flushTime : K) :
    List (Move K) → Nat → K → List (Move K) → Option (Generated K)
  | _, _, _, [] => none
  | before, skip, lastMoveTime, m :: rest =>
    let forceStepsTime := lastMoveTime + sk.genStepsPostActive
    if CheckActive sk m then
      (leads sk lastFlushTime flushTime forceStepsTime before skip m).bind fun lead =>
        let own := lead ++ [⟨m, lastFlushTime, flushTime⟩]
        if m.endTime ≥ flushTime then some ⟨flushTime, own⟩
        else (generate sk lastFlushTime flushTime (m :: before) 0 m.endTime rest).map
          (Generated.prepend own)
    else
      let tail : List (Range K) :=
        -- steps just past the last activity
        if m.printTime < forceStepsTime then
          [⟨m, lastFlushTime, min forceStepsTime flushTime⟩]
        else []
      let skip := if m.printTime < forceStepsTime then 1 else skip + 1
      if flushTime + sk.genStepsPreActive ≤ m.endTime then some ⟨lastMoveTime, tail⟩
      else (generate sk lastFlushTime flushTime (m :: before) skip lastMoveTime rest).map
        (Generated.prepend tail)

/-- The first loop: to the first move that is not over. -/
def advance (lastFlushTime : K) : List (Move K) → List (Move K) → List (Move K) × List (Move K)
  | before, [] => (before, [])
  | before, m :: rest =>
    if lastFlushTime ≥ m.endTime then advance lastFlushTime (m :: before) rest
    else (before, m :: rest)

/-- `itersolve_generate_steps`, when no call of `itersolve_gen_steps_range` fails. -/
def itersolveGenerateSteps (sk : Kinematics K) (tq : Option (Queue K)) (flushTime : K) :
    Option (Kinematics K × Option (Queue K) × List (Range K)) :=
  let flushed := { sk with lastFlushTime := flushTime }
  match tq with
  | none => some (flushed, none, [])
  | some tq =>
    let tq := trapqCheckSentinels tq
    let (before, moves) :=
      advance sk.lastFlushTime [] (headSentinel :: (tq.moves ++ [tq.tailSentinel]))
    (generate sk sk.lastFlushTime flushTime before 0 sk.lastMoveTime moves).map fun g =>
      ({ flushed with lastMoveTime := g.lastMoveTime }, some tq, g.ranges)

/-! ## Ranges of time -/

/-- The clipped range, as times. -/
def Range.lo (r : Range K) : K := r.move.printTime + r.start

/-- The print time at the end. -/
def Range.hi (r : Range K) : K := r.move.printTime + r.stop

/-- The ranges follow each other, apart from those in which there is no time. -/
def InOrder (ranges : List (Range K)) : Prop :=
  ranges.Pairwise fun r r' => r.lo < r.hi → r'.lo < r'.hi → r.hi ≤ r'.lo

/-- A time is in one of the ranges, which do not contain their starts. -/
def Covered (ranges : List (Range K)) (t : K) : Prop := ∃ r ∈ ranges, r.lo < t ∧ t ≤ r.hi

/-- The time in which a stepper needs its steps for a move: within it, up to
    `gen_steps_pre_active` before or up to `gen_steps_post_active` after it. -/
def Window (sk : Kinematics K) (m : Move K) (t : K) : Prop :=
  m.printTime - sk.genStepsPreActive < t ∧ t ≤ m.endTime + sk.genStepsPostActive

variable {r : Range K} {m : Move K} {t absStart absEnd : K} {ranges : List (Range K)}

theorem Covered.append_left {ranges' : List (Range K)} (h : Covered ranges t) :
    Covered (ranges ++ ranges') t := by
  obtain ⟨r, hr, hin⟩ := h
  exact ⟨r, mem_append_left _ hr, hin⟩

theorem Covered.append_right {ranges' : List (Range K)} (h : Covered ranges' t) :
    Covered (ranges ++ ranges') t := by
  obtain ⟨r, hr, hin⟩ := h
  exact ⟨r, mem_append_right _ hr, hin⟩

/-- The ranges are in order and between two flushes, and do not start before `lowest`. -/
structure Spread (lastFlush flush lowest : K) (ranges : List (Range K)) : Prop where
  order : InOrder ranges
  within : ∀ r ∈ ranges, lastFlush ≤ r.absStart ∧ r.absEnd ≤ flush
  later : ∀ r ∈ ranges, r.lo < r.hi → lowest ≤ r.lo

theorem Spread.append {lastFlush flush lowest bound : K} {front : List (Range K)}
    (h : Spread lastFlush flush lowest front) (hfront : ∀ r ∈ front, r.hi ≤ bound)
    (h' : Spread lastFlush flush bound ranges) (hbound : lowest ≤ bound) :
    Spread lastFlush flush lowest (front ++ ranges) := by
  refine ⟨pairwise_append.mpr ⟨h.order, h'.order, ?_⟩, ?_, ?_⟩
  · exact fun r hr r' hr' _ hne => (hfront r hr).trans (h'.later r' hr' hne)
  · exact forall_mem_append.mpr ⟨h.within, h'.within⟩
  · refine forall_mem_append.mpr ⟨h.later, ?_⟩
    exact fun r hr hne => hbound.trans (h'.later r hr hne)

variable [IsStrictOrderedRing K]

theorem Range.lo_eq (r : Range K) : r.lo = max r.absStart r.move.printTime := by
  rw [Range.lo, Range.start]
  split
  · rw [add_zero, max_eq_right (by linarith)]
  · rw [add_sub_cancel, max_eq_left (by linarith)]

theorem Range.hi_eq (r : Range K) : r.hi = min r.absEnd r.move.endTime := by
  rw [Range.hi, Range.stop, Move.endTime]
  split
  · rw [min_eq_right (by linarith)]
  · rw [add_sub_cancel, min_eq_left (by linarith)]

theorem covered_of_mem (h : ⟨m, absStart, absEnd⟩ ∈ ranges)
    (hstart : absStart < t) (hprint : m.printTime < t) (hend : t ≤ absEnd)
    (hlast : t ≤ m.endTime) : Covered ranges t := by
  refine ⟨_, h, ?_, ?_⟩
  · rw [Range.lo_eq]
    exact max_lt hstart hprint
  · rw [Range.hi_eq]
    exact le_min hend hlast

/-! ## The walk back -/

omit [Field K] [IsStrictOrderedRing K] in
/-- The walk back stays among the skipped moves, and stops early only at one that starts by
    `absStart`. -/
theorem leadIn_spec {skip : Nat} {before after : List (Move K)} (hskip : skip ≠ 0)
    (hlength : skip ≤ before.length) :
    ∃ dropped kept, (before.take skip).reverse = dropped ++ kept ∧ kept ≠ [] ∧
      leadIn absStart skip before after = some (kept ++ after) ∧
      (dropped = [] ∨ ∀ pm ∈ kept.head?, pm.printTime ≤ absStart) := by
  induction before generalizing skip after with
  | nil => exact absurd (Nat.le_zero.mp hlength) hskip
  | cons pm before ih =>
    obtain ⟨n, rfl⟩ := Nat.exists_eq_succ_of_ne_zero hskip
    have hn : n ≤ before.length := Nat.le_of_succ_le_succ hlength
    rw [leadIn, take_succ_cons, reverse_cons]
    by_cases hgo : n + 1 - 1 ≠ 0 ∧ pm.printTime > absStart
    · rw [if_pos hgo]
      obtain ⟨dropped, kept, htake, hne, heq, hstop⟩ := @ih n (pm :: after) hgo.1 hn
      refine ⟨dropped, kept ++ [pm], ?_, by simp, ?_, ?_⟩
      · rw [← append_assoc, ← htake]
      · rw [append_assoc]
        exact heq
      · rw [head?_append_of_ne_nil _ hne]
        exact hstop
    · rw [if_neg hgo]
      refine ⟨(before.take n).reverse, [pm], rfl, cons_ne_nil _ _, rfl, ?_⟩
      by_cases hn0 : n = 0
      · subst hn0
        exact .inl rfl
      · refine .inr fun x hx => ?_
        cases hx
        exact not_lt.mp fun hlt => hgo ⟨hn0, hlt⟩

/-! ## The loop -/

variable {sk : Kinematics K} {lastFlush flush lastMove here : K} {skip : Nat}
  {before stretch rest l : List (Move K)} {g : Generated K}

/-- The loop is at the moves `l`, which start `here`; the `stretch` before them has been passed
    over, at least in part. -/
structure Standing (sk : Kinematics K) (lastFlush flush : K) (before : List (Move K))
    (skip : Nat) (lastMove here : K) (stretch l : List (Move K)) : Prop where
  skipped : (before.take skip).reverse = stretch
  length : skip ≤ before.length
  contiguous : Contiguous (stretch ++ l)
  lasting : ∀ m ∈ stretch ++ l, 0 ≤ m.moveT
  starts : ∀ m ∈ l.head?, m.printTime = here ∧ lastFlush < m.endTime ∧ lastMove ≤ m.endTime
  ends : ∃ m ∈ l.getLast?, ¬ CheckActive sk m ∧ flush + sk.genStepsPreActive ≤ m.endTime

/-- **WHAT THE REST OF THE LOOP DOES**: its ranges follow each other and those before, and they
    contain what is needed from `here` on, and in the `stretch` where it was not generated yet. -/
structure Generated.Fits (sk : Kinematics K) (lastFlush flush lastMove here : K)
    (stretch l : List (Move K)) (g : Generated K) : Prop where
  order : InOrder g.ranges
  within : ∀ r ∈ g.ranges, lastFlush ≤ r.absStart ∧ r.absEnd ≤ flush
  later : ∀ r ∈ g.ranges, r.lo < r.hi → min (lastMove + sk.genStepsPostActive) here ≤ r.lo
  covers : ∀ t, lastFlush < t → t ≤ flush →
    (here < t ∨ lastMove + sk.genStepsPostActive < t ∧ ∃ n ∈ stretch.head?, n.printTime < t) →
    (t ≤ lastMove + sk.genStepsPostActive ∨ ∃ a ∈ l, CheckActive sk a ∧ Window sk a t) →
    Covered g.ranges t
  moved : min lastMove flush ≤ g.lastMoveTime
  active : ∀ a ∈ l, CheckActive sk a → a.printTime < flush → min a.endTime flush ≤ g.lastMoveTime
  bounded : lastMove ≤ flush → g.lastMoveTime ≤ flush

theorem Standing.apart (h : Standing sk lastFlush flush before skip lastMove here stretch l) :
    Apart Move.printTime Move.endTime (stretch ++ l) :=
  h.contiguous.apart fun m hm => le_endTime (h.lasting m hm)

omit [IsStrictOrderedRing K] in
/-- After an active move that lasts until the flush nothing is left to do. -/
theorem fits_flushed (hend : flush ≤ m.endTime) :
    Generated.Fits sk lastFlush flush m.endTime m.endTime [] rest ⟨flush, []⟩ where
  order := Pairwise.nil
  within := nofun
  later := nofun
  covers := by
    rintro t - hle (hlt | ⟨-, n, hn, -⟩) -
    · exact absurd (hlt.trans_le (hle.trans hend)) (lt_irrefl _)
    · cases hn
  moved := min_le_right _ _
  active := fun _ _ _ _ => min_le_right _ _
  bounded := fun _ => le_rfl

omit [IsStrictOrderedRing K] in
theorem Generated.Fits.spread (hg : g.Fits sk lastFlush flush lastMove here stretch l) :
    Spread lastFlush flush (min (lastMove + sk.genStepsPostActive) here) g.ranges :=
  { hg with }

/-- The steps just past the last activity, within a move that starts before `force`. -/
def tailRanges (lastFlush flush force : K) (m : Move K) : List (Range K) :=
  if m.printTime < force then [⟨m, lastFlush, min force flush⟩] else []

omit [Field K] [IsStrictOrderedRing K] in
theorem mem_tailRanges {force : K} (hr : r ∈ tailRanges lastFlush flush force m) :
    r = ⟨m, lastFlush, min force flush⟩ := by
  rw [tailRanges] at hr
  split at hr
  · exact mem_singleton.mp hr
  · cases hr

theorem spread_tailRanges (lastFlush flush force : K) (m : Move K) :
    Spread lastFlush flush m.printTime (tailRanges lastFlush flush force m) := by
  refine ⟨?_, ?_, ?_⟩
  · rw [tailRanges]
    split
    · exact pairwise_singleton _ _
    · exact Pairwise.nil
  · intro r hr
    rw [mem_tailRanges hr]
    exact ⟨le_rfl, min_le_right _ _⟩
  · intro r hr _
    rw [mem_tailRanges hr, Range.lo_eq]
    exact le_max_right _ _

section Step

variable (h : Standing sk lastFlush flush before skip lastMove here stretch (m :: rest))
include h

/-- The steps leading up to an active move. -/
theorem leads_spec {force : K} :
    ∃ lead, leads sk lastFlush flush force before skip m = some lead ∧ InOrder lead ∧
      (∀ r ∈ lead, lastFlush ≤ r.absStart ∧ r.absEnd ≤ flush ∧ force ≤ r.lo ∧ r.hi ≤ here) ∧
      ∀ t, lastFlush < t → t ≤ flush → t ≤ here → force < t →
        here - sk.genStepsPreActive < t → (∃ n ∈ stretch.head?, n.printTime < t) →
        Covered lead t := by
  have hhere : m.printTime = here := (h.starts m rfl).1
  rw [leads]
  by_cases hgo : skip ≠ 0 ∧ sk.genStepsPreActive ≠ 0
  · rw [if_pos hgo]
    dsimp only
    generalize habs : max (max (m.printTime - sk.genStepsPreActive) lastFlush) force = absStart
    have hflush : lastFlush ≤ absStart := habs ▸ (le_max_right _ _).trans (le_max_left _ _)
    have hforce : force ≤ absStart := habs ▸ le_max_right _ _
    obtain ⟨dropped, kept, htake, hne, heq, hstop⟩ :=
      @leadIn_spec K _ absStart skip before [] hgo.1 h.length
    rw [heq, append_nil]
    have hstretch : stretch = dropped ++ kept := h.skipped.symm.trans htake
    -- the moves of the walk are the last ones of the stretch
    have hcontiguous : Contiguous (kept ++ m :: rest) := by
      have := h.contiguous
      rw [hstretch, append_assoc] at this
      exact this.right_of_append
    have hapart := h.apart
    rw [hstretch, append_assoc] at hapart
    obtain ⟨hkept, -, hbefore⟩ := pairwise_append.mp (pairwise_append.mp hapart).2.1
    refine ⟨_, rfl, ?_, ?_, ?_⟩
    · refine pairwise_map.mpr (hkept.imp ?_)
      intro pm pm' hle _ _
      rw [Range.hi_eq, Range.lo_eq]
      exact (min_le_right _ _).trans (hle.trans (le_max_right _ _))
    · refine forall_mem_map.mpr fun pm hpm => ⟨hflush, le_rfl, ?_, ?_⟩
      · rw [Range.lo_eq]
        exact hforce.trans (le_max_left _ _)
      · rw [Range.hi_eq, ← hhere]
        exact (min_le_right _ _).trans (hbefore pm hpm m mem_cons_self)
    · intro t hlt hle hthere hforce' hpre hfirst
      have habst : absStart < t := by
        rw [← habs, hhere]
        exact max_lt (max_lt hpre hlt) hforce'
      have hhead : ∃ pm ∈ kept.head?, pm.printTime < t := by
        rcases hstop with hnil | hstop
        · rw [hstretch, hnil, nil_append] at hfirst
          exact hfirst
        · have hmem : kept.head hne ∈ kept.head? := head?_eq_some_head hne
          exact ⟨_, hmem, (hstop _ hmem).trans_lt habst⟩
      obtain ⟨pm, hpm, hstart, hend⟩ := Abut.exists_mem hcontiguous hhead (hthere.trans hhere.ge)
      exact covered_of_mem (mem_map_of_mem hpm) habst hstart hle hend
  · rw [if_neg hgo]
    refine ⟨[], rfl, Pairwise.nil, nofun, ?_⟩
    intro t _ _ hthere _ hpre hfirst
    exfalso
    by_cases hskip : skip = 0
    · obtain ⟨n, hn, -⟩ := hfirst
      rw [← h.skipped, hskip] at hn
      cases hn
    · have hpre0 : sk.genStepsPreActive = 0 := not_not.mp fun hne => hgo ⟨hskip, hne⟩
      rw [hpre0, sub_zero] at hpre
      exact absurd hpre (not_lt.mpr hthere)

/-- The rest of the moves after the first. -/
theorem Standing.next :
    here ≤ m.endTime ∧ (∀ n ∈ rest.head?, n.printTime = m.endTime) ∧
      ∀ a ∈ rest, m.endTime ≤ a.printTime := by
  obtain ⟨-, hright, -⟩ := pairwise_append.mp h.apart
  refine ⟨?_, ?_, (pairwise_cons.mp hright).1⟩
  · rw [← (h.starts m rfl).1]
    exact le_endTime (h.lasting m (mem_append_right _ mem_cons_self))
  · have hcontiguous := isChain_cons.mp h.contiguous.right_of_append
    exact fun n hn => (hcontiguous.1 n hn).symm

variable {stretch' : List (Move K)}

/-- The loop goes on after the move `m`, with the new `stretch` in front. -/
theorem Standing.step (hrest : rest ≠ []) {skip' : Nat} {lastMove' : K}
    (hskip : skip' ≤ skip + 1) (htake : ((m :: before).take skip').reverse = stretch')
    (hsuffix : stretch' ++ rest <:+ stretch ++ m :: rest) (hmoved : lastMove' ≤ m.endTime) :
    Standing sk lastFlush flush (m :: before) skip' lastMove' m.endTime stretch' rest := by
  obtain ⟨-, hnext, hlater⟩ := h.next
  refine ⟨htake, hskip.trans (Nat.succ_le_succ h.length), h.contiguous.suffix hsuffix,
    fun n hn => h.lasting n (hsuffix.subset hn), ?_, ?_⟩
  · intro n hn
    have hmem : n ∈ rest := mem_of_mem_head? hn
    have hend : m.endTime ≤ n.endTime :=
      (hlater n hmem).trans (le_endTime (h.lasting n (by simp [hmem])))
    exact ⟨hnext n hn, (h.starts m rfl).2.1.trans_le hend, hmoved.trans hend⟩
  · obtain ⟨n, hn, hends⟩ := h.ends
    rw [getLast?_cons_of_ne_nil hrest] at hn
    exact ⟨n, hn, hends⟩

/-- After a move that lasts until all moves that matter are known nothing is left to do. -/
theorem fits_known (hpre : 0 ≤ sk.genStepsPreActive)
    (hend : flush + sk.genStepsPreActive ≤ m.endTime) (stretch' : List (Move K)) :
    Generated.Fits sk lastFlush flush lastMove m.endTime stretch' rest ⟨lastMove, []⟩ where
  order := Pairwise.nil
  within := nofun
  later := nofun
  covers := by
    obtain ⟨-, -, hlater⟩ := h.next
    rintro t - hle hlt hneeds
    exfalso
    rcases hlt with hlt | ⟨hforce, -⟩
    · linarith
    · rcases hneeds with hneeds | ⟨a, ha, -, hwindow, -⟩
      · exact absurd hneeds (not_le.mpr hforce)
      · have := hlater a ha
        linarith
  moved := min_le_left _ _
  active := by
    obtain ⟨-, -, hlater⟩ := h.next
    intro a ha _ hlt
    have := hlater a ha
    exact absurd hlt (by linarith)
  bounded := id

section Active

variable {lead : List (Range K)}
  (hcovers : ∀ t, lastFlush < t → t ≤ flush → t ≤ here →
    lastMove + sk.genStepsPostActive < t → here - sk.genStepsPreActive < t →
    (∃ n ∈ stretch.head?, n.printTime < t) → Covered lead t)
  (hg : g.Fits sk lastFlush flush m.endTime m.endTime [] rest)
include hcovers hg

/-- What an active move and those after it need is in the ranges. -/
theorem Generated.Fits.active_covers (hlt : lastFlush < t) (hle : t ≤ flush)
    (hfrom : here < t ∨
      lastMove + sk.genStepsPostActive < t ∧ ∃ n ∈ stretch.head?, n.printTime < t)
    (hneeds : t ≤ lastMove + sk.genStepsPostActive ∨
      ∃ a ∈ m :: rest, CheckActive sk a ∧ Window sk a t) :
    Covered (lead ++ [⟨m, lastFlush, flush⟩] ++ g.ranges) t := by
  obtain ⟨hhere, -, hmove⟩ := h.starts m rfl
  obtain ⟨hend, -, hlater⟩ := h.next
  rcases le_or_gt t here with hthere | hthere
  · -- in front of the move: some later move needs it, and then this one does
    obtain ⟨hforce, hfirst⟩ := hfrom.resolve_left (not_lt.mpr hthere)
    obtain ⟨a, ha, -, hwindow, -⟩ := hneeds.resolve_left (not_le.mpr hforce)
    have hpre : here - sk.genStepsPreActive < t := by
      rcases mem_cons.mp ha with rfl | ha
      · rw [← hhere]
        exact hwindow
      · have := hlater a ha
        linarith
    exact (hcovers t hlt hle hthere hforce hpre hfirst).append_left.append_left
  · rcases le_or_gt t m.endTime with htend | htend
    · exact (covered_of_mem (mem_append_right _ (mem_singleton_self _)) hlt
        (hhere ▸ hthere) hle htend).append_left
    · refine (hg.covers t hlt hle (.inl htend) ?_).append_right
      rcases hneeds with hneeds | ⟨a, ha, haactive, hwindow⟩
      · exact .inl (hneeds.trans (by linarith))
      · rcases mem_cons.mp ha with rfl | ha
        · exact .inl hwindow.2
        · exact .inr ⟨a, ha, haactive, hwindow⟩

/-- An active move: its own range, with what leads up to it in front. -/
theorem Generated.Fits.active_cons (hpost : 0 ≤ sk.genStepsPostActive) (horder : InOrder lead)
    (hlead : ∀ r ∈ lead, lastFlush ≤ r.absStart ∧ r.absEnd ≤ flush ∧
      lastMove + sk.genStepsPostActive ≤ r.lo ∧ r.hi ≤ here)
    (hbounded : g.lastMoveTime ≤ flush) :
    (g.prepend (lead ++ [⟨m, lastFlush, flush⟩])).Fits sk lastFlush flush lastMove here
      stretch (m :: rest) := by
  obtain ⟨hhere, -, hmove⟩ := h.starts m rfl
  obtain ⟨hend, -, -⟩ := h.next
  -- first the lead, up to the move, then the move, up to its end, then the rest
  have hlead' : Spread lastFlush flush (min (lastMove + sk.genStepsPostActive) here) lead :=
    ⟨horder, fun r hr => ⟨(hlead r hr).1, (hlead r hr).2.1⟩,
      fun r hr _ => (min_le_left _ _).trans (hlead r hr).2.2.1⟩
  have hown : Spread lastFlush flush here [⟨m, lastFlush, flush⟩] := by
    refine ⟨pairwise_singleton _ _, forall_mem_singleton.mpr ⟨le_rfl, le_rfl⟩,
      forall_mem_singleton.mpr fun _ => ?_⟩
    rw [Range.lo_eq, ← hhere]
    exact le_max_right _ _
  have hownEnd : Range.hi (⟨m, lastFlush, flush⟩ : Range K) ≤ m.endTime := by
    rw [Range.hi_eq]
    exact min_le_right _ _
  have hrest : Spread lastFlush flush m.endTime g.ranges := by
    have hspread := hg.spread
    rwa [min_eq_right (le_add_of_nonneg_right hpost)] at hspread
  have hall := (hlead'.append (fun r hr => (hlead r hr).2.2.2) hown (min_le_right _ _)).append
    (forall_mem_append.mpr ⟨fun r hr => (hlead r hr).2.2.2.trans hend,
      forall_mem_singleton.mpr hownEnd⟩) hrest ((min_le_right _ _).trans hend)
  refine ⟨hall.order, hall.within, hall.later, ?_, ?_, ?_, fun _ => hbounded⟩
  · exact fun t hlt hle => hg.active_covers h hcovers hlt hle
  · exact le_trans (min_le_min_right _ hmove) hg.moved
  · exact forall_mem_cons.mpr ⟨fun _ _ => hg.moved, hg.active⟩

end Active

omit [IsStrictOrderedRing K] in
/-- A move that is passed over belongs to the stretch; it is all of it if a part of the
    move has been generated. -/
theorem Standing.pass (force : K) :
    ((m :: before).take (if m.printTime < force then 1 else skip + 1)).reverse =
        (if m.printTime < force then [m] else stretch ++ [m]) ∧
      (if m.printTime < force then [m] else stretch ++ [m]) ++ rest <:+
        stretch ++ m :: rest ∧
      (if m.printTime < force then 1 else skip + 1) ≤ skip + 1 := by
  by_cases hlt : m.printTime < force
  · rw [if_pos hlt, if_pos hlt]
    exact ⟨rfl, suffix_append _ _, Nat.succ_le_succ (Nat.zero_le _)⟩
  · rw [if_neg hlt, if_neg hlt, take_succ_cons, reverse_cons, h.skipped, append_assoc]
    exact ⟨rfl, suffix_refl _, le_rfl⟩

/-- The new stretch starts no later than the old one or the move. -/
theorem Standing.head_stretch {force : K} (hforce : force < t)
    (hfrom : here < t ∨ force < t ∧ ∃ n ∈ stretch.head?, n.printTime < t) :
    ∃ n ∈ (if m.printTime < force then [m] else stretch ++ [m]).head?, n.printTime < t := by
  have hhere : m.printTime = here := (h.starts m rfl).1
  split
  · rename_i hlt
    exact ⟨m, rfl, hlt.trans hforce⟩
  · cases stretch with
    | nil =>
      refine ⟨m, rfl, ?_⟩
      rcases hfrom with hfrom | ⟨-, n, hn, -⟩
      · rwa [hhere]
      · cases hn
    | cons n stretch =>
      refine ⟨n, rfl, ?_⟩
      rcases hfrom with hfrom | ⟨-, n', hn', hlt⟩
      · -- it is over before the move starts
        have hle : n.endTime ≤ m.printTime := (pairwise_append.mp h.apart).2.2
          n mem_cons_self m mem_cons_self
        have hn : n.printTime ≤ n.endTime := le_endTime (h.lasting n mem_cons_self)
        exact (hn.trans hle).trans_lt (hhere ▸ hfrom)
      · cases hn'
        exact hlt

/-- What the moves after an inactive one need is in the ranges. -/
theorem Generated.Fits.inactive_covers (hstretch : stretch' =
      if m.printTime < lastMove + sk.genStepsPostActive then [m] else stretch ++ [m])
    (hg : g.Fits sk lastFlush flush lastMove m.endTime stretch' rest) (hlt : lastFlush < t)
    (hle : t ≤ flush)
    (hfrom : here < t ∨
      lastMove + sk.genStepsPostActive < t ∧ ∃ n ∈ stretch.head?, n.printTime < t)
    (hneeds : t ≤ lastMove + sk.genStepsPostActive ∨
      ∃ a ∈ rest, CheckActive sk a ∧ Window sk a t) :
    Covered (tailRanges lastFlush flush (lastMove + sk.genStepsPostActive) m ++ g.ranges) t := by
  rcases le_or_gt t m.endTime with htend | htend
  · rcases le_or_gt t (lastMove + sk.genStepsPostActive) with htforce | htforce
    · -- the activity before lasts until `t`
      have hthere : m.printTime < t := by
        rw [(h.starts m rfl).1]
        exact hfrom.resolve_right fun h => absurd htforce (not_le.mpr h.1)
      refine (covered_of_mem ?_ hlt hthere (le_min htforce hle) htend).append_left
      rw [tailRanges, if_pos (hthere.trans_le htforce)]
      exact mem_singleton_self _
    · refine (hg.covers t hlt hle (.inr ⟨htforce, ?_⟩) hneeds).append_right
      rw [hstretch]
      exact h.head_stretch htforce hfrom
  · exact (hg.covers t hlt hle (.inl htend) hneeds).append_right

/-- A move the stepper is not active in: what follows the activity before, if that lasts
    into the move. -/
theorem Generated.Fits.inactive_cons (hinactive : ¬ CheckActive sk m) (hstretch : stretch' =
      if m.printTime < lastMove + sk.genStepsPostActive then [m] else stretch ++ [m])
    (hg : g.Fits sk lastFlush flush lastMove m.endTime stretch' rest) :
    (g.prepend (tailRanges lastFlush flush (lastMove + sk.genStepsPostActive) m)).Fits
      sk lastFlush flush lastMove here stretch (m :: rest) := by
  obtain ⟨hend, -, -⟩ := h.next
  have htail := spread_tailRanges lastFlush flush (lastMove + sk.genStepsPostActive) m
  rw [(h.starts m rfl).1] at htail
  have hhi : ∀ r ∈ tailRanges lastFlush flush (lastMove + sk.genStepsPostActive) m,
      r.hi ≤ min (lastMove + sk.genStepsPostActive) m.endTime := by
    intro r hr
    rw [mem_tailRanges hr, Range.hi_eq]
    exact min_le_min_right _ (min_le_left _ _)
  have hall : Spread lastFlush flush (min (lastMove + sk.genStepsPostActive) here) _ :=
    Spread.append ⟨htail.order, htail.within,
      fun r hr hne => (min_le_right _ _).trans (htail.later r hr hne)⟩ hhi hg.spread
      (min_le_min_left _ hend)
  refine ⟨hall.order, hall.within, hall.later, ?_, hg.moved, ?_, hg.bounded⟩
  · -- an active move of the list is one of the rest
    intro t hlt hle hfrom hneeds
    refine hg.inactive_covers h hstretch hlt hle hfrom (hneeds.imp_right fun hneeds => ?_)
    exact ((exists_mem_cons_iff ..).mp hneeds).resolve_left fun hm => hinactive hm.1
  · exact forall_mem_cons.mpr ⟨fun h => absurd h hinactive, hg.active⟩

end Step

/-- **THE LOOP**: it ends before it runs past the tail sentinel. -/
theorem generate_spec (hpre : 0 ≤ sk.genStepsPreActive) (hpost : 0 ≤ sk.genStepsPostActive)
    (h : Standing sk lastFlush flush before skip lastMove here stretch l) :
    ∃ g, generate sk lastFlush flush before skip lastMove l = some g ∧
      g.Fits sk lastFlush flush lastMove here stretch l := by
  induction l generalizing before skip lastMove here stretch with
  | nil =>
    obtain ⟨m, hm, -⟩ := h.ends
    cases hm
  | cons m rest ih =>
    rw [generate]
    dsimp only
    by_cases hactive : CheckActive sk m
    · obtain ⟨lead, hlead, horder, hwithin, hcovers⟩ :=
        @leads_spec K _ _ m _ sk lastFlush flush lastMove here skip before stretch rest h
          (lastMove + sk.genStepsPostActive)
      rw [if_pos hactive, hlead, Option.bind_some]
      by_cases hend : m.endTime ≥ flush
      · rw [if_pos hend]
        have hdone : Generated.Fits sk lastFlush flush m.endTime m.endTime [] rest
            ⟨flush, []⟩ := fits_flushed hend
        have hfits := hdone.active_cons h hcovers hpost horder hwithin le_rfl
        rw [Generated.prepend, append_nil] at hfits
        exact ⟨_, rfl, hfits⟩
      · rw [if_neg hend]
        have hrest : rest ≠ [] := by
          rintro rfl
          obtain ⟨n, hn, hinactive, -⟩ := h.ends
          cases hn
          exact hinactive hactive
        have hnext := h.step hrest (Nat.zero_le _) rfl
          ((suffix_cons m rest).trans (suffix_append stretch _)) le_rfl
        obtain ⟨g, hg, hfits⟩ := ih hnext
        rw [hg]
        exact ⟨_, rfl, hfits.active_cons h hcovers hpost horder hwithin
          (hfits.bounded (not_le.mp hend).le)⟩
    · rw [if_neg hactive]
      obtain ⟨htake, hsuffix, hskip⟩ := h.pass (lastMove + sk.genStepsPostActive)
      by_cases hend : flush + sk.genStepsPreActive ≤ m.endTime
      · rw [if_pos hend]
        have hfits := (fits_known h hpre hend _).inactive_cons h hactive rfl
        rw [Generated.prepend, append_nil] at hfits
        exact ⟨_, rfl, hfits⟩
      · rw [if_neg hend]
        have hrest : rest ≠ [] := by
          rintro rfl
          obtain ⟨n, hn, -, hends⟩ := h.ends
          cases hn
          exact hend hends
        have hnext := h.step hrest hskip htake hsuffix (h.starts m rfl).2.2
        obtain ⟨g, hg, hfits⟩ := ih hnext
        rw [hg]
        exact ⟨_, rfl, hfits.inactive_cons h hactive rfl⟩

end Itersolve
