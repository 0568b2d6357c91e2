import Pick.ItersolveProofs

/-! # Runs of step generation

Moves are appended to the `trapq`, steps are generated up to one flush time after
the other and moves are finalized. -/

namespace Itersolve

open List Span Trapq

variable {K : Type} [Field K] [LinearOrder K] {tq : Queue K} {m : Move K}
  {a : Trapq.Append K} {t clear : K}

/-! ## The tail sentinel -/

/-- When the queue ends. -/
def idle (tq : Queue K) : K := tq.moves.getLast?.elim neverTime Move.endTime

/-- The tail sentinel stands, and where it has a time this is the end of the queue. -/
structure Tailed (tq : Queue K) : Prop where
  moveT : tq.tailSentinel.moveT = neverTime
  axesR : tq.tailSentinel.axesR = ⟨0, 0, 0⟩
  printTime : tq.tailSentinel.printTime ≠ 0 → tq.tailSentinel.printTime = idle tq

theorem Tailed.checkSentinels (h : Tailed tq) :
    Tailed (trapqCheckSentinels tq) ∧
      (trapqCheckSentinels tq).tailSentinel.printTime = idle tq := by
  have hidle : idle (trapqCheckSentinels tq) = idle tq := by
    rw [idle, (checkSentinels_frame tq).1, idle]
  have htime : (trapqCheckSentinels tq).tailSentinel.printTime = idle tq ∧
      (trapqCheckSentinels tq).tailSentinel.moveT = tq.tailSentinel.moveT ∧
      (trapqCheckSentinels tq).tailSentinel.axesR = tq.tailSentinel.axesR := by
    rw [trapqCheckSentinels]
    by_cases hzero : tq.tailSentinel.printTime ≠ 0
    · rw [if_pos hzero]
      exact ⟨h.printTime hzero, rfl, rfl⟩
    · rw [if_neg hzero, idle]
      cases tq.moves.getLast? with
      | none | some m => exact ⟨rfl, rfl, rfl⟩
  refine ⟨⟨htime.2.1.trans h.moveT, htime.2.2.trans h.axesR, fun _ => ?_⟩, htime.1⟩
  rw [hidle]
  exact htime.1

/-- An append that adds a move marks the sentinel. -/
theorem foldl_addPhase_tail {axesR : Coord K} (ps : List (Phase K)) {c : Cursor K}
    (h : Tailed c.tq) : Tailed (ps.foldl (addPhase axesR) c).tq := by
  refine List.foldlRecOn (motive := fun c : Cursor K => Tailed c.tq) ps _ h fun c h p _ => ?_
  rw [addPhase]
  split
  · exact ⟨h.moveT, h.axesR, fun hzero => absurd rfl hzero⟩
  · exact h

theorem Tailed.append (h : Tailed tq) (a : Trapq.Append K) : Tailed (trapqAppend tq a) :=
  foldl_addPhase_tail a.phases h

theorem Tailed.finalize (h : Tailed tq) (t clear : K) : Tailed (trapqFinalizeMoves tq t clear) := by
  obtain ⟨done, hmoves, -, -, -⟩ := finalize_spec tq t clear
  have htail : (trapqFinalizeMoves tq t clear).tailSentinel =
      if (trapqFinalizeMoves tq t clear).moves = [] then
        { tq.tailSentinel with printTime := neverTime } else tq.tailSentinel := rfl
  by_cases hnil : (trapqFinalizeMoves tq t clear).moves = []
  · rw [if_pos hnil] at htail
    refine ⟨?_, ?_, fun _ => ?_⟩
    · rw [htail]
      exact h.moveT
    · rw [htail]
      exact h.axesR
    · rw [htail, idle, hnil]
      rfl
  · -- the last move is still there
    rw [if_neg hnil] at htail
    have hidle : idle (trapqFinalizeMoves tq t clear) = idle tq := by
      rw [idle, idle, hmoves, getLast?_append_of_ne_nil _ hnil]
    refine ⟨?_, ?_, ?_⟩
    · rw [htail]
      exact h.moveT
    · rw [htail]
      exact h.axesR
    · rw [htail, hidle]
      exact h.printTime

/-! ## One call -/

variable {sk : Kinematics K} {flushTime : K}

/-- The first loop passes over the moves that are over. -/
theorem advance_spec (lastFlush : K) (before l : List (Move K)) :
    ∃ done, l = done ++ (advance lastFlush before l).2 ∧
      (advance lastFlush before l).1 = done.reverse ++ before ∧
      (∀ m ∈ done, m.endTime ≤ lastFlush) ∧
      ∀ m ∈ (advance lastFlush before l).2.head?, lastFlush < m.endTime := by
  fun_induction advance lastFlush before l with
  | case1 => exact ⟨[], rfl, rfl, nofun, nofun⟩
  | case2 before m l hover ih =>
    obtain ⟨done, hl, hbefore, hdone, hleft⟩ := ih
    refine ⟨m :: done, congrArg (m :: ·) hl, ?_, forall_mem_cons.mpr ⟨hover, hdone⟩, hleft⟩
    rw [hbefore, reverse_cons, append_assoc]
    rfl
  | case3 before m l hover =>
    refine ⟨[], rfl, rfl, nofun, fun n hn => ?_⟩
    cases hn
    exact not_le.mp hover

omit [LinearOrder K] in
/-- A move along no axis is active for no stepper. -/
theorem not_active_of_axesR (h : m.axesR = ⟨0, 0, 0⟩) : ¬ CheckActive sk m := by
  rw [CheckActive, h]
  rintro (⟨-, hx⟩ | ⟨-, hy⟩ | ⟨-, hz⟩)
  · exact hx rfl
  · exact hy rfl
  · exact hz rfl

/-- The two loops stay within the queue and its tail sentinel. -/
def CanFlush (sk : Kinematics K) (tq : Queue K) (flushTime : K) : Prop :=
  sk.lastFlushTime ≤ flushTime ∧ sk.lastFlushTime < idle tq + neverTime ∧
    flushTime + sk.genStepsPreActive ≤ idle tq + neverTime

variable [IsStrictOrderedRing K]

theorem neverTime_nonneg : (0 : K) ≤ neverTime := by
  rw [neverTime]
  positivity

/-- **WHAT ONE CALL DOES.**  The moves `done` are over, and the loop starts with the others,
    which start `here`. -/
structure Called (sk : Kinematics K) (tq : Queue K) (flushTime : K) (g : Generated K)
    (done left : List (Move K)) (here : K) : Prop where
  split : tq.moves ++ [(trapqCheckSentinels tq).tailSentinel] = done ++ left
  passed : ∀ m ∈ done, m.endTime ≤ sk.lastFlushTime
  behind : ∀ m ∈ done, here ≤ sk.lastFlushTime
  ahead : ∀ m ∈ left, here ≤ m.printTime
  fits : g.Fits sk sk.lastFlushTime flushTime sk.lastMoveTime here [] left

/-- The queue with its tail sentinel. -/
theorem contiguous_tail (hcontiguous : Contiguous tq.moves)
    (hlasting : ∀ m ∈ tq.moves, 0 ≤ m.moveT) (htailed : Tailed tq) :
    Contiguous (tq.moves ++ [(trapqCheckSentinels tq).tailSentinel]) ∧
      ∀ m ∈ tq.moves ++ [(trapqCheckSentinels tq).tailSentinel], 0 ≤ m.moveT := by
  obtain ⟨htailed', hidle⟩ := htailed.checkSentinels
  refine ⟨IsChain.append hcontiguous (isChain_singleton _) ?_, ?_⟩
  · intro m hm n hn
    cases hn
    rw [hidle, idle, Option.mem_def.mp hm]
    rfl
  · rw [forall_mem_append, forall_mem_singleton, htailed'.moveT]
    exact ⟨hlasting, neverTime_nonneg⟩

/-- In a contiguous list whose last move is not over, the first loop stops at a move that starts
    where those passed end. -/
theorem advance_contiguous {lastFlush : K} {l before : List (Move K)} {last : Move K}
    (hchain : Contiguous l) (hlasts : ∀ m ∈ l, 0 ≤ m.moveT) (hlast : l.getLast? = some last)
    (hover : lastFlush < last.endTime) :
    ∃ done m rest, (advance lastFlush before l).2 = m :: rest ∧ l = done ++ m :: rest ∧
      (∀ n ∈ done, n.endTime ≤ lastFlush ∧ m.printTime ≤ lastFlush) ∧
      lastFlush < m.endTime ∧ (∀ n ∈ m :: rest, m.printTime ≤ n.printTime) ∧
      (m :: rest).getLast? = some last := by
  obtain ⟨done, hsplit, -, hdone, hstart⟩ := advance_spec lastFlush before l
  cases hleft : (advance lastFlush before l).2 with
  | nil =>
    rw [hleft, append_nil] at hsplit
    have hlast' := hdone last (hsplit ▸ mem_of_getLast? hlast)
    exact absurd hlast' (not_le.mpr hover)
  | cons m rest =>
    rw [hleft] at hsplit hstart
    rw [hsplit] at hchain hlasts hlast
    refine ⟨done, m, rest, rfl, hsplit, ?_, hstart m rfl, ?_, ?_⟩
    · intro n hn
      have hne : done ≠ [] := ne_nil_of_mem hn
      have hjoin : (done.getLast hne).endTime = m.printTime :=
        (isChain_append.mp hchain).2.2 _ (getLast?_eq_some_getLast hne) m rfl
      rw [← hjoin]
      exact ⟨hdone n hn, hdone _ (getLast_mem hne)⟩
    · have hapart : Apart Move.printTime Move.endTime (m :: rest) :=
        Abut.apart hchain.right_of_append fun n hn => le_endTime (hlasts n (mem_append_right _ hn))
      have hm : m.printTime ≤ m.endTime := le_endTime (hlasts m (mem_append_right _ mem_cons_self))
      exact forall_mem_cons.mpr ⟨le_rfl, fun n hn => hm.trans ((pairwise_cons.mp hapart).1 n hn)⟩
    · rwa [getLast?_append_of_ne_nil _ (cons_ne_nil m rest)] at hlast

theorem generateSteps_spec (hcontiguous : Contiguous tq.moves)
    (hlasting : ∀ m ∈ tq.moves, 0 ≤ m.moveT) (htailed : Tailed tq)
    (hpre : 0 ≤ sk.genStepsPreActive) (hpost : 0 ≤ sk.genStepsPostActive)
    (hzero : 0 ≤ sk.lastFlushTime) (hmoved : sk.lastMoveTime ≤ sk.lastFlushTime)
    (hflush : CanFlush sk tq flushTime) :
    ∃ (g : Generated K) (done left : List (Move K)) (here : K),
      itersolveGenerateSteps sk (some tq) flushTime =
        some ({ sk with lastFlushTime := flushTime, lastMoveTime := g.lastMoveTime },
          some (trapqCheckSentinels tq), g.ranges) ∧ Called sk tq flushTime g done left here := by
  obtain ⟨htailed', hidle⟩ := htailed.checkSentinels
  obtain ⟨hchain, hlasts⟩ := contiguous_tail hcontiguous hlasting htailed
  have hmoves := (checkSentinels_frame tq).1
  set tail := (trapqCheckSentinels tq).tailSentinel
  have htail : tail.endTime = idle tq + neverTime := by rw [Move.endTime, hidle, htailed'.moveT]
  -- the head sentinel is over
  have hhead : advance sk.lastFlushTime [] (headSentinel :: (tq.moves ++ [tail])) =
      advance sk.lastFlushTime [headSentinel] (tq.moves ++ [tail]) := by
    rw [advance, if_pos]
    show (0 : K) + 0 ≤ sk.lastFlushTime
    rwa [add_zero]
  -- and the tail sentinel is not
  obtain ⟨done, m, rest, hleft, hsplit, hdone, hm, hahead, hlast⟩ :=
    @advance_contiguous K _ _ _ sk.lastFlushTime (tq.moves ++ [tail]) [headSentinel] tail
      hchain hlasts getLast?_concat (htail ▸ hflush.2.1)
  have hsuffix : m :: rest <:+ tq.moves ++ [tail] := hsplit ▸ suffix_append done _
  have hstanding : Standing sk sk.lastFlushTime flushTime
      (advance sk.lastFlushTime [headSentinel] (tq.moves ++ [tail])).1 0 sk.lastMoveTime
      m.printTime [] (m :: rest) := by
    refine ⟨rfl, Nat.zero_le _, hchain.suffix hsuffix, fun n hn => hlasts n (hsuffix.subset hn),
      ?_, tail, hlast, not_active_of_axesR htailed'.axesR, htail ▸ hflush.2.2⟩
    intro n hn
    cases hn
    exact ⟨rfl, hm, hmoved.trans hm.le⟩
  obtain ⟨g, hg, hfits⟩ := generate_spec hpre hpost hstanding
  refine ⟨g, done, m :: rest, m.printTime, ?_, hsplit, fun n hn => (hdone n hn).1,
    fun n hn => (hdone n hn).2, hahead, hfits⟩
  rw [itersolveGenerateSteps]
  dsimp only
  rw [hmoves, hhead, hleft, hg]
  rfl

/-! ## Runs -/

/-- A stepper on a queue.  `queued` are all moves there ever were in the queue, null moves
    included, `flushes` the flush times so far and `ranges` those of all calls. -/
structure Stepping (K : Type) where
  queue : Trapq.World K
  sk : Kinematics K
  queued : List (Move K)
  flushes : List K
  ranges : List (Range K)

/-- A new stepper: its times are zero. -/
def Stepping.init (activeFlags : UInt32) (pre post : K) : Stepping K where
  queue := World.init
  sk := ⟨0, 0, activeFlags, pre, post⟩
  queued := []
  flushes := []
  ranges := []

/-- `trapq_append`. -/
def Stepping.append (w : Stepping K) (a : Trapq.Append K) : Stepping K :=
  { w with
    queue := w.queue.step (.append a)
    queued := w.queued ++ (trapqAppend w.queue.tq a).moves.drop w.queue.tq.moves.length }

/-- `trapq_finalize_moves`. -/
def Stepping.finalize (w : Stepping K) (t clear : K) : Stepping K :=
  { w with queue := w.queue.step (.finalizeMoves t clear) }

/-- A call of `itersolve_generate_steps`. -/
def Stepping.flush (w : Stepping K) (flushTime : K) : Option (Stepping K) :=
  match itersolveGenerateSteps w.sk (some w.queue.tq) flushTime with
  | some (sk, some tq, ranges) => some
      { w with
        queue := { w.queue with tq }
        sk
        flushes := flushTime :: w.flushes
        ranges := w.ranges ++ ranges }
  | _ => none

/-- **THE RUNS.**  All moves that start before a flush time plus `gen_steps_pre_active` are
    appended before the flush, and a move is finalized no earlier than `gen_steps_post_active`
    after it. -/
inductive Runs (start : Stepping K) : Stepping K → Prop where
  | init : Runs start start
  | append {w : Stepping K} (a : Trapq.Append K) : Runs start w → w.queue.Legal (.append a) →
      w.queue.Meets (.append a) →
      (∀ f ∈ w.flushes, f + w.sk.genStepsPreActive ≤ a.printTime) → Runs start (w.append a)
  | finalize {w : Stepping K} (t clear : K) : Runs start w →
      t + w.sk.genStepsPostActive ≤ w.sk.lastFlushTime → Runs start (w.finalize t clear)
  | flush {w w' : Stepping K} (flushTime : K) : Runs start w →
      CanFlush w.sk w.queue.tq flushTime → w.flush flushTime = some w' → Runs start w'

/-- Going back from `a` without a gap, the moves reach back beyond the time `t`. -/
def ReachesBack (queued : List (Move K)) (a : Move K) (t : K) : Prop :=
  a.printTime < t ∨ ∃ l n s r, queued = l ++ (n :: s) ++ a :: r ∧
    Contiguous (n :: s ++ [a]) ∧ n.printTime < t

/-- The stepper needs its steps at `t`: it is in the window of an active move, and the queue
    reaches back to it. -/
def Needed (sk : Kinematics K) (queued : List (Move K)) (t : K) : Prop :=
  ∃ a ∈ queued, CheckActive sk a ∧ Window sk a t ∧ ReachesBack queued a t

/-- What a run keeps. -/
structure Stepping.Kept (w : Stepping K) : Prop where
  pre : 0 ≤ w.sk.genStepsPreActive
  post : 0 ≤ w.sk.genStepsPostActive
  ordered : w.queue.Ordered
  tailed : Tailed w.queue.tq
  split : ∃ gone, w.queued = gone ++ w.queue.tq.moves ∧
    ∀ m ∈ gone, m.endTime + w.sk.genStepsPostActive ≤ w.sk.lastFlushTime
  lasting : ∀ m ∈ w.queued, CheckActive w.sk m → m.printTime < m.endTime
  flushed : w.flushes = [] ∧ w.sk.lastFlushTime = 0 ∧ w.sk.lastMoveTime = 0 ∨
    w.sk.lastFlushTime ∈ w.flushes
  zero : 0 ≤ w.sk.lastFlushTime
  moved : w.sk.lastMoveTime ≤ w.sk.lastFlushTime
  active : ∀ m ∈ w.queued, CheckActive w.sk m → m.printTime < w.sk.lastFlushTime →
    min m.endTime w.sk.lastFlushTime ≤ w.sk.lastMoveTime
  order : InOrder w.ranges
  within : ∀ r ∈ w.ranges, r.absEnd ≤ w.sk.lastFlushTime
  covers : ∀ t, 0 < t → t ≤ w.sk.lastFlushTime → Needed w.sk w.queued t → Covered w.ranges t

variable {w : Stepping K}

omit [IsStrictOrderedRing K] in
theorem Stepping.Kept.init (activeFlags : UInt32) {pre post : K} (hpre : 0 ≤ pre)
    (hpost : 0 ≤ post) : (Stepping.init activeFlags pre post).Kept where
  pre := hpre
  post := hpost
  ordered := World.Ordered.init
  tailed := ⟨rfl, rfl, fun _ => rfl⟩
  split := ⟨[], rfl, nofun⟩
  lasting := nofun
  flushed := .inl ⟨rfl, rfl, rfl⟩
  zero := le_rfl
  moved := le_rfl
  active := nofun
  order := Pairwise.nil
  within := nofun
  covers := fun _ hpos hle => absurd hpos (not_lt.mpr hle)

omit [IsStrictOrderedRing K] in
/-- What an append adds: `trapq_append` never changes the moves that are there. -/
theorem append_moves (tq : Queue K) (a : Trapq.Append K) :
    (trapqAppend tq a).moves = tq.moves ++ (trapqAppend tq a).moves.drop tq.moves.length := by
  rw [trapqAppend_moves, drop_left]

/-- An active move that is added is one of the phases. -/
theorem added_active (ha : a.Lasting) :
    ∀ m ∈ (trapqAppend tq a).moves.drop tq.moves.length, CheckActive sk m →
      a.printTime ≤ m.printTime ∧ m.printTime < m.endTime := by
  rw [trapqAppend_moves, drop_left]
  intro m hm hactive
  rcases mem_append.mp hm with hm | hm
  · -- the null move is not active
    obtain ⟨-, -, -, -, -, haxes⟩ := gap_spec hm
    exact absurd hactive (not_active_of_axesR haxes)
  · obtain ⟨hstart, hlast, -⟩ := Append.moves_within ha m hm
    refine ⟨hstart, ?_⟩
    have hne : m.moveT ≠ 0 := by
      have hmem : m.moveT ∈ a.moves.map Move.moveT := mem_map_of_mem hm
      rw [Append.moves, phaseMoves_moveT] at hmem
      simpa using (mem_filter.mp hmem).2
    exact lt_add_of_pos_right _ (lt_of_le_of_ne hlast hne.symm)

omit [Field K] [LinearOrder K] [IsStrictOrderedRing K] in
/-- A move that is not among the last ones is among the first ones, with all before it. -/
theorem split_left {queued added x r : List (Move K)} (hnot : m ∉ added)
    (h : queued ++ added = x ++ m :: r) : ∃ r', queued = x ++ m :: r' := by
  rcases append_eq_append_iff.mp h with ⟨y, hx, hadded⟩ | ⟨y, hqueued, hr⟩
  · exact absurd (hadded ▸ mem_append_right y mem_cons_self) hnot
  · cases y with
    | nil =>
      have hadded : m :: r = added := hr
      exact absurd (hadded ▸ mem_cons_self) hnot
    | cons n y =>
      cases hr
      exact ⟨y, hqueued⟩

omit [IsStrictOrderedRing K] in
/-- What is needed is not needed because of moves whose time has not come. -/
theorem Needed.of_append {queued added : List (Move K)}
    (hfuture : ∀ m ∈ added, CheckActive sk m → ¬ Window sk m t)
    (h : Needed sk (queued ++ added) t) : Needed sk queued t := by
  obtain ⟨m, hm, hactive, hwindow, hreach⟩ := h
  have hnot : m ∉ added := fun hm => hfuture m hm hactive hwindow
  refine ⟨m, (mem_append.mp hm).resolve_right hnot, hactive, hwindow, ?_⟩
  refine hreach.imp_right ?_
  rintro ⟨l, n, s, r, heq, hcontiguous, hlt⟩
  obtain ⟨r', hr'⟩ := split_left hnot heq
  exact ⟨l, n, s, r', hr', hcontiguous, hlt⟩

theorem Stepping.Kept.append (h : w.Kept) (hlegal : w.queue.Legal (.append a))
    (hmeets : w.queue.Meets (.append a))
    (hlater : ∀ f ∈ w.flushes, f + w.sk.genStepsPreActive ≤ a.printTime) : (w.append a).Kept := by
  have hadded := @added_active K _ _ w.queue.tq a w.sk _ hlegal.1
  have hmoves := append_moves w.queue.tq a
  set added := (trapqAppend w.queue.tq a).moves.drop w.queue.tq.moves.length with hdef
  have hqueued : (w.append a).queued = w.queued ++ added := rfl
  obtain ⟨gone, hsplit, hgone⟩ := h.split
  refine
    { h with
      ordered := h.ordered.step hlegal hmeets
      tailed := h.tailed.append a
      split := ⟨gone, ?_, hgone⟩
      lasting := ?_
      active := ?_
      covers := ?_ }
  · show w.queued ++ added = gone ++ (trapqAppend w.queue.tq a).moves
    rw [hsplit, hmoves, append_assoc]
  · rw [hqueued]
    exact forall_mem_append.mpr ⟨h.lasting, fun m hm hactive => (hadded m hm hactive).2⟩
  · rw [hqueued]
    refine forall_mem_append.mpr ⟨h.active, fun m hm hactive hstart => ?_⟩
    rcases h.flushed with ⟨-, hflush, hmove⟩ | hmem
    · show min m.endTime w.sk.lastFlushTime ≤ w.sk.lastMoveTime
      rw [hmove, hflush]
      exact min_le_right _ _
    · have hm := (hadded m hm hactive).1
      have hle := hlater _ hmem
      have hpre := h.pre
      have hstart : m.printTime < w.sk.lastFlushTime := hstart
      exact absurd hstart (by linarith)
  · intro t hpos hle hneeded
    refine h.covers t hpos hle (Needed.of_append ?_ hneeded)
    -- what is added is not needed yet
    intro m hm hactive hwindow
    rcases h.flushed with ⟨-, hzero, -⟩ | hmem
    · exact absurd hpos (not_lt.mpr (hle.trans hzero.le))
    · have hstart := (hadded m hm hactive).1
      have := hlater _ hmem
      have := hwindow.1
      have hle : t ≤ w.sk.lastFlushTime := hle
      linarith

theorem Stepping.Kept.finalize (h : w.Kept)
    (hlate : t + w.sk.genStepsPostActive ≤ w.sk.lastFlushTime) : (w.finalize t clear).Kept := by
  obtain ⟨gone, hsplit, hgone⟩ := h.split
  obtain ⟨done, hmoves, -, hdone, -⟩ := finalize_spec w.queue.tq t clear
  refine
    { h with
      ordered := @World.Ordered.step K _ _ _ w.queue (.finalizeMoves t clear) h.ordered trivial
        trivial
      tailed := h.tailed.finalize t clear
      split := ⟨gone ++ done, ?_, ?_⟩ }
  · show w.queued = gone ++ done ++ (trapqFinalizeMoves w.queue.tq t clear).moves
    rw [hsplit, append_assoc, ← hmoves]
  · exact forall_mem_append.mpr ⟨hgone, fun m hm => (add_le_add_left (hdone m hm) _).trans hlate⟩

variable {g : Generated K} {done left : List (Move K)} {here : K}

omit [IsStrictOrderedRing K] in
/-- A queued move whose window is not over at the last flush is still in the queue. -/
theorem Stepping.Kept.mem_moves (h : w.Kept) (hm : m ∈ w.queued)
    (hlate : w.sk.lastFlushTime < m.endTime + w.sk.genStepsPostActive) : m ∈ w.queue.tq.moves := by
  obtain ⟨gone, hsplit, hgone⟩ := h.split
  rw [hsplit] at hm
  exact (mem_append.mp hm).resolve_left fun hm => (hgone m hm).not_gt hlate

/-- The loop comes to a queued move that is not over at the last flush. -/
theorem Stepping.Kept.mem_left (h : w.Kept)
    (hcalled : Called w.sk w.queue.tq flushTime g done left here) (hm : m ∈ w.queued)
    (hlate : w.sk.lastFlushTime < m.endTime) : m ∈ left := by
  have hmoves := h.mem_moves hm (lt_add_of_lt_of_nonneg hlate h.post)
  have hall : m ∈ done ++ left := hcalled.split ▸ mem_append_left _ hmoves
  exact (mem_append.mp hall).resolve_left fun hm => absurd (hcalled.passed m hm) (not_le.mpr hlate)

/-- What is needed after the last flush is within what the loop covers. -/
theorem Stepping.Kept.needed (h : w.Kept)
    (hcalled : Called w.sk w.queue.tq flushTime g done left here)
    (hlt : w.sk.lastFlushTime < t) (hneeded : Needed w.sk w.queued t) :
    here < t ∧ (t ≤ w.sk.lastMoveTime + w.sk.genStepsPostActive ∨
      ∃ a ∈ left, CheckActive w.sk a ∧ Window w.sk a t) := by
  obtain ⟨a, ha, hactive, hwindow, hreach⟩ := hneeded
  rcases le_or_gt a.endTime w.sk.lastFlushTime with hover | hlate
  · -- the move is over: it is not gone yet, and the activity lasts until `t`
    have hmoves := h.mem_moves ha (hlt.trans_le hwindow.2)
    have hmoved : a.endTime ≤ w.sk.lastMoveTime := by
      have := h.active a ha hactive ((h.lasting a ha hactive).trans_le hover)
      rwa [min_eq_left hover] at this
    have hdone : here ≤ w.sk.lastFlushTime := by
      have hall : a ∈ done ++ left := hcalled.split ▸ mem_append_left _ hmoves
      rcases mem_append.mp hall with hdone | hleft
      · exact hcalled.behind a hdone
      · exact (hcalled.ahead a hleft).trans ((h.lasting a ha hactive).le.trans hover)
    exact ⟨hdone.trans_lt hlt, .inl (hwindow.2.trans (add_le_add_left hmoved _))⟩
  · have hleft := h.mem_left hcalled ha hlate
    refine ⟨?_, .inr ⟨a, hleft, hactive, hwindow⟩⟩
    rcases le_or_gt t a.printTime with hle | hgt
    · -- going back from the move, one comes to the move at the time `t`
      obtain ⟨l, n, s, r, hqueued, hcontiguous, hn⟩ := hreach.resolve_left (not_lt.mpr hle)
      obtain ⟨x, hx, hstart, hend⟩ := Abut.exists_mem hcontiguous ⟨n, rfl, hn⟩ hle
      have hxq : x ∈ w.queued := by
        rw [hqueued]
        exact mem_append_left _ (mem_append_right _ hx)
      exact (hcalled.ahead x (h.mem_left hcalled hxq (hlt.trans_le hend))).trans_lt hstart
    · exact (hcalled.ahead a hleft).trans_lt hgt

theorem Stepping.Kept.flush (h : w.Kept) (hcan : CanFlush w.sk w.queue.tq flushTime)
    {w' : Stepping K} (hrun : w.flush flushTime = some w') : w'.Kept := by
  obtain ⟨g, done, left, here, hcall, hcalled⟩ := generateSteps_spec h.ordered.queue.contiguous
    h.ordered.queue.lasting h.tailed h.pre h.post h.zero h.moved hcan
  rw [Stepping.flush, hcall] at hrun
  cases hrun
  obtain ⟨hle, -, -⟩ := hcan
  obtain ⟨gone, hsplit, hgone⟩ := h.split
  have hfits := hcalled.fits
  refine
    { pre := h.pre
      post := h.post
      ordered := @World.Ordered.step K _ _ _ w.queue .checkSentinels h.ordered trivial trivial
      tailed := h.tailed.checkSentinels.1
      split := ⟨gone, ?_, fun m hm => (hgone m hm).trans hle⟩
      lasting := h.lasting
      flushed := .inr mem_cons_self
      zero := h.zero.trans hle
      moved := hfits.bounded (h.moved.trans hle)
      active := ?_
      order := ?_
      within := ?_
      covers := ?_ }
  · show w.queued = gone ++ (trapqCheckSentinels w.queue.tq).moves
    rw [(checkSentinels_frame _).1, hsplit]
  · intro m hm hactive hstart
    rcases le_or_gt m.endTime w.sk.lastFlushTime with hover | hlate
    · have hmoved := h.active m hm hactive ((h.lasting m hm hactive).trans_le hover)
      rw [min_eq_left hover] at hmoved
      exact (min_le_min_right _ hmoved).trans hfits.moved
    · exact hfits.active m (h.mem_left hcalled hm hlate) hactive hstart
  · -- an earlier range ends by the last flush, and those of this call start there
    refine pairwise_append.mpr ⟨h.order, hfits.order, fun r hr r' hr' _ _ => ?_⟩
    rw [Range.hi_eq, Range.lo_eq]
    calc min r.absEnd r.move.endTime ≤ r.absEnd := min_le_left _ _
      _ ≤ w.sk.lastFlushTime := h.within r hr
      _ ≤ r'.absStart := (hfits.within r' hr').1
      _ ≤ max r'.absStart r'.move.printTime := le_max_left _ _
  · exact forall_mem_append.mpr
      ⟨fun r hr => (h.within r hr).trans hle, fun r hr => (hfits.within r hr).2⟩
  · intro t hpos htle hneeded
    rcases le_or_gt t w.sk.lastFlushTime with hold | hnew
    · exact (h.covers t hpos hold hneeded).append_left
    · obtain ⟨hhere, hneeds⟩ := h.needed hcalled hnew hneeded
      exact (hfits.covers t hnew htle (.inl hhere) hneeds).append_right

/-- Every run keeps it. -/
theorem Runs.kept {start : Stepping K} (hstart : start.Kept) (h : Runs start w) : w.Kept := by
  induction h with
  | init => exact hstart
  | append a _ hlegal hmeets hlater ih => exact ih.append hlegal hmeets hlater
  | finalize t clear _ hlate ih => exact ih.finalize hlate
  | flush flushTime _ hcan hrun ih => exact ih.flush hcan hrun

omit [IsStrictOrderedRing K] in
/-- Ranges that follow each other are disjoint. -/
theorem InOrder.disjoint {ranges : List (Range K)} (h : InOrder ranges) :
    ranges.Pairwise fun r r' => ∀ t, r.lo < t → t ≤ r.hi → r'.lo < t → ¬ t ≤ r'.hi := by
  refine h.imp fun hle t hlo hhi hlo' hhi' => ?_
  exact absurd (hle (hlo.trans_le hhi) (hlo'.trans_le hhi')) (not_le.mpr (hlo'.trans_le hhi))

omit [IsStrictOrderedRing K] in
/-- A call changes the two times of the stepper only. -/
theorem generateSteps_kinematics {o : Option (Queue K)} {sk' : Kinematics K}
    {r : Option (Queue K) × List (Range K)}
    (h : itersolveGenerateSteps sk o flushTime = some (sk', r)) :
    ∃ lastMove, sk' = { sk with lastFlushTime := flushTime, lastMoveTime := lastMove } := by
  cases o with
  | none =>
    cases h
    exact ⟨sk.lastMoveTime, rfl⟩
  | some tq =>
    obtain ⟨g, -, hg⟩ := Option.map_eq_some_iff.mp h
    cases hg
    exact ⟨g.lastMoveTime, rfl⟩

omit [IsStrictOrderedRing K] in
/-- The flags and the times before and after activity stay as they are. -/
theorem Runs.config {start : Stepping K} (h : Runs start w) :
    w.sk.activeFlags = start.sk.activeFlags ∧ w.sk.genStepsPreActive = start.sk.genStepsPreActive ∧
      w.sk.genStepsPostActive = start.sk.genStepsPostActive := by
  induction h with
  | init => exact ⟨rfl, rfl, rfl⟩
  | append a _ _ _ _ ih => exact ih
  | finalize t clear _ _ ih => exact ih
  | flush flushTime _ _ hrun ih =>
    rw [Stepping.flush] at hrun
    split at hrun
    · rename_i hcall
      obtain ⟨lastMove, rfl⟩ := generateSteps_kinematics hcall
      cases hrun
      exact ih
    · cases hrun

/-- **STEP GENERATION COVERS EVERY ACTIVE TIME EXACTLY ONCE.**  The loops never run past the
    tail sentinel, which would be no result. -/
theorem active_time_covered_once {activeFlags : UInt32} {pre post : K} (hpre : 0 ≤ pre)
    (hpost : 0 ≤ post) (h : Runs (Stepping.init activeFlags pre post) w) :
    (w.sk.activeFlags = activeFlags ∧ w.sk.genStepsPreActive = pre ∧
        w.sk.genStepsPostActive = post) ∧
      InOrder w.ranges ∧
      (w.ranges.Pairwise fun r r' => ∀ t, r.lo < t → t ≤ r.hi → r'.lo < t → ¬ t ≤ r'.hi) ∧
      (∀ t, 0 < t → t ≤ w.sk.lastFlushTime → Needed w.sk w.queued t → Covered w.ranges t) ∧
      ∀ flushTime, CanFlush w.sk w.queue.tq flushTime → (w.flush flushTime).isSome := by
  have hkept := h.kept (Stepping.Kept.init activeFlags hpre hpost)
  refine ⟨h.config, hkept.order, hkept.order.disjoint, hkept.covers, fun flushTime hcan => ?_⟩
  obtain ⟨g, done, left, here, hcall, -⟩ := generateSteps_spec
    hkept.ordered.queue.contiguous hkept.ordered.queue.lasting hkept.tailed hkept.pre
    hkept.post hkept.zero hkept.moved hcan
  rw [Stepping.flush, hcall]
  rfl

/-- A run that appends a trapezoid and then flushes. -/
def trapezoidFlushed (pre post start : ℚ) (flushes : List ℚ) : Stepping ℚ :=
  flushes.foldl (fun w f => (w.flush f).getD w)
    ((Stepping.init 1 pre post).append (trapezoid start))

theorem runs_trapezoid (pre post start : ℚ) :
    Runs (Stepping.init 1 pre post) (trapezoidFlushed pre post start []) :=
  .append _ .init ⟨lasting_trapezoid start, bot_le, bot_le⟩ (not_skips_of_nil rfl) nofun

theorem Runs.flush_getD {start w : Stepping ℚ} {f : ℚ} (h : Runs start w)
    (hcan : CanFlush w.sk w.queue.tq f) (hsome : (w.flush f).isSome) :
    Runs start ((w.flush f).getD w) := by
  obtain ⟨w', hw'⟩ := Option.isSome_iff_exists.mp hsome
  rw [hw']
  exact h.flush f hcan hw'

/-- A trapezoid, flushed within its first phase and after its end. -/
theorem active_time_covered_once_cut :
    (trapezoidFlushed (1 / 2) (1 / 4) 2 [5 / 2, 6]).ranges.map (fun r => (r.lo, r.hi)) =
        [(3 / 2, 2), (2, 5 / 2), (5 / 2, 3), (3, 4), (4, 5), (5, 21 / 4)] ∧
      InOrder (trapezoidFlushed (1 / 2) (1 / 4) 2 [5 / 2, 6]).ranges := by
  have h₁ := runs_trapezoid (1 / 2) (1 / 4) 2
  have h₂ : Runs _ (trapezoidFlushed (1 / 2) (1 / 4) 2 [5 / 2]) :=
    h₁.flush_getD (by show _ ∧ _ ∧ _; decide +kernel) (by decide +kernel)
  have h₃ : Runs _ (trapezoidFlushed (1 / 2) (1 / 4) 2 [5 / 2, 6]) :=
    h₂.flush_getD (by show _ ∧ _ ∧ _; decide +kernel) (by decide +kernel)
  refine ⟨by decide +kernel, ?_⟩
  exact (active_time_covered_once (by decide +kernel) (by decide +kernel) h₃).2.1

/-- The first null move is limited to a second, so the queue does not reach back further: with
    `gen_steps_pre_active` of two seconds and a first move at 5, no range contains the time 7/2. -/
theorem lead_in_cut_at_null_move :
    ¬ ∀ w : Stepping ℚ, Runs (Stepping.init 1 2 0) w → ∀ t, 0 < t →
      t ≤ w.sk.lastFlushTime → (∃ a ∈ w.queued, CheckActive w.sk a ∧ Window w.sk a t) →
      Covered w.ranges t := by
  intro h
  have hruns : Runs _ (trapezoidFlushed 2 0 5 [5]) :=
    (runs_trapezoid 2 0 5).flush_getD (by show _ ∧ _ ∧ _; decide +kernel) (by decide +kernel)
  have hcovered := h _ hruns (7 / 2) (by decide +kernel) (by decide +kernel)
    (by show ∃ a ∈ _, _ ∧ _ ∧ _; decide +kernel)
  revert hcovered
  show ¬ ∃ r ∈ _, _ ∧ _
  decide +kernel

end Itersolve
