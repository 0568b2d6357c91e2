import Pick.TrapqProofs

/-! # Runs of the motion queue

What holds of a `trapq` after any sequence of appends, finalizations and position
changes: its moves are contiguous, its history is newest first without overlaps and
`trapq_extract_old` finds in it what overlaps a range of time. -/

namespace Trapq

open List Span

variable {K : Type} [Field K] [LinearOrder K] {tq : Queue K} {m h : Move K} {a : Append K}
  {t clear : K} {pos : Coord K}

/-- Each move starts exactly when the one before it ends. -/
def Contiguous (moves : List (Move K)) : Prop := Abut Move.printTime Move.endTime moves

/-- The history is newest first, and no two of its moves overlap. -/
def NewestFirst (history : List (Move K)) : Prop :=
  Span.NewestFirst Move.printTime Move.endTime history

/-- **THE ORDER OF A QUEUE**.  Null moves are passed over when they expire, so only a move
    that moves has to start after the history. -/
structure Ordered (tq : Queue K) : Prop where
  lasting : ∀ m ∈ tq.moves, 0 ≤ m.moveT
  contiguous : Contiguous tq.moves
  kept : ∀ h ∈ tq.history, 0 ≤ h.moveT
  newestFirst : NewestFirst tq.history
  past : ∀ h ∈ tq.history, ∀ m ∈ tq.moves, m.Moving → h.endTime ≤ m.printTime

/-! ## Appends -/

/-- The queue ends with a move that started at time zero, which `trapq_add_move` takes for the
    head sentinel: the null move is limited to a second whatever the gap. -/
def Skips (tq : Queue K) (a : Append K) : Prop :=
  a.moves ≠ [] ∧ ∃ m ∈ tq.moves.getLast?, m.printTime = 0 ∧ m.endTime < a.printTime ∧
    maxNullMove < a.printTime ∧ m.endTime ≠ a.printTime - maxNullMove

/-- The head sentinel itself is recognised. -/
theorem not_skips_of_nil (h : tq.moves = []) : ¬ Skips tq a := by
  rintro ⟨-, m, hm, -⟩
  rw [h] at hm
  cases hm

theorem contiguous_moves (a : Append K) : Contiguous a.moves :=
  (phaseMoves_chain a.phases).imp fun _ _ h => h.1

/-- What follows the last move of the queue starts when it ends, unless it is skipped. -/
theorem gap_joins {n : Move K} (ns : List (Move K)) (hle : tq.prev.endTime ≤ n.printTime) :
    (∀ x ∈ (tq.gap n ++ n :: ns).head?, tq.prev.endTime = x.printTime) ↔
      ¬ (tq.prev.printTime = 0 ∧ tq.prev.endTime < n.printTime ∧
        maxNullMove < n.printTime ∧ tq.prev.endTime ≠ n.printTime - maxNullMove) := by
  by_cases hlt : tq.prev.endTime < n.printTime
  · rw [gap_of_lt hlt]
    show (∀ x ∈ some (nullMove tq.prev n), _) ↔ _
    simp only [Option.mem_some_iff, forall_eq']
    rw [nullMove_printTime]
    exact not_congr ⟨fun h => ⟨h.1, hlt, h.2⟩, fun h => ⟨h.1, h.2.2⟩⟩
  · rw [gap_of_le (not_lt.mp hlt)]
    show (∀ x ∈ some n, _) ↔ _
    simp only [Option.mem_some_iff, forall_eq']
    exact ⟨fun _ h => hlt h.2.1, fun _ => le_antisymm hle (not_lt.mp hlt)⟩

variable [IsStrictOrderedRing K]

theorem le_endTime (h : 0 ≤ m.moveT) : m.printTime ≤ m.endTime := le_add_of_nonneg_right h

theorem Ordered.apart (h : Ordered tq) : Apart Move.printTime Move.endTime tq.moves :=
  h.contiguous.apart fun m hm => le_endTime (h.lasting m hm)

/-- The null move and the moves of an append are contiguous. -/
theorem contiguous_added (tq : Queue K) (a : Append K) :
    Contiguous (a.moves.head?.elim [] tq.gap ++ a.moves) := by
  cases hmoves : a.moves with
  | nil => exact isChain_nil
  | cons m ms =>
    have hchain : Contiguous (m :: ms) := hmoves ▸ contiguous_moves a
    show IsChain _ (tq.gap m ++ m :: ms)
    refine IsChain.append ?_ hchain ?_
    · rw [Queue.gap]
      split
      · exact isChain_singleton _
      · exact isChain_nil
    · intro g hg n hn
      cases hn
      have hmem : g ∈ (some m).elim [] tq.gap := mem_of_getLast? hg
      obtain ⟨m', hm', -, -, hend, -⟩ := gap_spec hmem
      cases hm'
      exact hend

/-- An append keeps the queue contiguous exactly if the null move fills the gap. -/
theorem contiguous_append_iff (hmoves : Contiguous tq.moves)
    (hlater : ∀ m ∈ tq.moves, m.endTime ≤ a.printTime) :
    Contiguous (trapqAppend tq a).moves ↔ ¬ Skips tq a := by
  have hadded := contiguous_added tq a
  have hjoin : Contiguous (trapqAppend tq a).moves ↔
      ∀ m ∈ tq.moves.getLast?, ∀ x ∈ (a.moves.head?.elim [] tq.gap ++ a.moves).head?,
        m.endTime = x.printTime := by
    rw [trapqAppend_moves, Contiguous, Abut, isChain_append]
    exact ⟨fun h => h.2.2, fun h => ⟨hmoves, hadded, h⟩⟩
  rw [hjoin, Skips]
  cases hlast : tq.moves.getLast? with
  | none => exact ⟨fun _ h => (nomatch h.2.choose_spec.1), nofun⟩
  | some m =>
    cases hms : a.moves with
    | nil => exact ⟨fun _ h => h.1 rfl, nofun⟩
    | cons n ns =>
      have hprev : tq.prev = m := by rw [Queue.prev, hlast]; rfl
      have hn : n.printTime = a.printTime :=
        (phaseMoves_start a.phases n (by rw [← Append.moves, hms]; rfl)).1
      have hle : tq.prev.endTime ≤ n.printTime := by
        rw [hprev, hn]
        exact hlater m (mem_of_getLast? hlast)
      have hgap := gap_joins ns hle
      rw [hprev, hn] at hgap
      simp only [Option.mem_some_iff, forall_eq']
      refine hgap.trans (not_congr ⟨fun h => ⟨cons_ne_nil _ _, m, rfl, h⟩, ?_⟩)
      rintro ⟨-, m', rfl, h⟩
      exact h

/-- What an append adds starts no earlier than the append, apart from the null move. -/
theorem added_spec (ha : a.Lasting) :
    ∀ m ∈ a.moves.head?.elim [] tq.gap ++ a.moves,
      0 ≤ m.moveT ∧ m.endTime ≤ a.endTime ∧ (m.Moving → a.printTime ≤ m.printTime) := by
  have hwithin := Append.moves_within ha
  intro m hm
  rcases mem_append.mp hm with hm | hm
  · obtain ⟨n, hn, hstill, hlast, hend, -⟩ := gap_spec hm
    obtain ⟨-, hn₀, hn⟩ := hwithin n (mem_of_mem_head? hn)
    refine ⟨hlast, ?_, fun hmoving => absurd hmoving hstill⟩
    exact hend.le.trans ((le_endTime hn₀).trans hn)
  · obtain ⟨hstart, hlast, hend⟩ := hwithin m hm
    exact ⟨hlast, hend, fun _ => hstart⟩

theorem Ordered.append (h : Ordered tq) (ha : a.Lasting)
    (hmoves : ∀ m ∈ tq.moves, m.endTime ≤ a.printTime)
    (hhistory : ∀ m ∈ tq.history, m.endTime ≤ a.printTime) (hskips : ¬ Skips tq a) :
    Ordered (trapqAppend tq a) := by
  have hadded := @added_spec K _ _ tq a _ ha
  have hcontiguous := (contiguous_append_iff h.contiguous hmoves).mpr hskips
  refine ⟨?_, hcontiguous, ?_, ?_, ?_⟩
  · rw [trapqAppend_moves]
    exact forall_mem_append.mpr ⟨h.lasting, fun m hm => (hadded m hm).1⟩
  · rw [trapqAppend_history]
    exact h.kept
  · rw [trapqAppend_history]
    exact h.newestFirst
  · rw [trapqAppend_history, trapqAppend_moves]
    intro m' hm' m hm hmoving
    rcases mem_append.mp hm with hm | hm
    · exact h.past m' hm' m hm hmoving
    · exact (hhistory m' hm').trans ((hadded m hm).2.2 hmoving)

/-! ## Finalization -/

theorem Ordered.finalize (h : Ordered tq) (t clear : K) :
    Ordered (trapqFinalizeMoves tq t clear) := by
  obtain ⟨done, hmoves, hsub, -, -⟩ := finalize_spec tq t clear
  have hapart := h.apart
  rw [hmoves] at hapart
  obtain ⟨hdone, -, hcross⟩ := pairwise_append.mp hapart
  have hmem : ∀ m ∈ done, m ∈ tq.moves := fun m hm => hmoves ▸ mem_append_left _ hm
  have hleft : ∀ m ∈ (trapqFinalizeMoves tq t clear).moves, m ∈ tq.moves :=
    fun m hm => hmoves ▸ mem_append_right _ hm
  -- an entry of the new history is one of the old or a move that is over
  have hnew : ∀ m ∈ (trapqFinalizeMoves tq t clear).history,
      m ∈ tq.history ∨ m ∈ done ∧ m.Moving := by
    intro m hm
    rcases mem_append.mp (hsub.subset hm) with hm | hm
    · obtain ⟨hm, hmoving⟩ := mem_filter.mp (mem_reverse.mp hm)
      exact .inr ⟨hm, of_decide_eq_true hmoving⟩
    · exact .inl hm
  refine ⟨fun m hm => h.lasting m (hleft m hm), ?_, ?_, ?_, ?_⟩
  · have hcontiguous := h.contiguous
    rw [hmoves] at hcontiguous
    exact hcontiguous.right_of_append
  · intro m hm
    rcases hnew m hm with hm | ⟨hm, -⟩
    · exact h.kept m hm
    · exact h.lasting m (hmem m hm)
  · refine Span.NewestFirst.sublist (pairwise_append.mpr ⟨?_, h.newestFirst, ?_⟩) hsub
    · exact Apart.newestFirst (Pairwise.sublist filter_sublist hdone)
    · intro m hm m' hm'
      obtain ⟨hm, hmoving⟩ := mem_filter.mp (mem_reverse.mp hm)
      exact h.past m' hm' m (hmem m hm) (of_decide_eq_true hmoving)
  · intro m' hm' m hm hmoving
    rcases hnew m' hm' with hm' | ⟨hm', -⟩
    · exact h.past m' hm' m (hleft m hm) hmoving
    · exact hcross m' hm' m hm

/-! ## Position changes -/

/-- What is left of the history lies before the time of the change. -/
theorem prune_spec {history : List (Move K)} (hkept : ∀ m ∈ history, 0 ≤ m.moveT)
    (h : NewestFirst history) :
    NewestFirst (prune t history) ∧ ∀ m ∈ prune t history, 0 ≤ m.moveT ∧ m.endTime ≤ t := by
  fun_induction prune t history with
  | case1 => exact ⟨Pairwise.nil, nofun⟩
  | case2 m history hlt =>
    obtain ⟨hm₀, hkept⟩ := forall_mem_cons.mp hkept
    obtain ⟨hm, hhistory⟩ := pairwise_cons.mp h
    -- the cut move keeps its start, so the older ones still lie before it
    obtain ⟨cut, hcut, hstart, hlast, hend⟩ : ∃ cut : Move K,
        (if m.endTime > t then { m with moveT := t - m.printTime } else m) = cut ∧
          cut.printTime = m.printTime ∧ 0 ≤ cut.moveT ∧ cut.endTime ≤ t := by
      by_cases hover : m.endTime > t
      · exact ⟨_, if_pos hover, rfl, (sub_pos.mpr hlt).le, (add_sub_cancel _ _).le⟩
      · exact ⟨_, if_neg hover, rfl, hm₀, not_lt.mp hover⟩
    rw [hcut]
    refine ⟨pairwise_cons.mpr ⟨?_, hhistory⟩, forall_mem_cons.mpr ⟨⟨hlast, hend⟩, ?_⟩⟩
    · rw [hstart]
      exact hm
    · exact fun n hn => ⟨hkept n hn, (hm n hn).trans hlt.le⟩
  | case3 m history hlt ih => exact ih (forall_mem_cons.mp hkept).2 (pairwise_cons.mp h).2

/-- The position is not set within a move that `trapq_set_position` cannot flush, because
    it ends after `NEVER_TIME`. -/
def Flushes (tq : Queue K) (t : K) : Prop := ∀ m ∈ tq.moves, m.endTime ≤ neverTime ∨ t ≤ m.printTime

theorem Ordered.setPosition (h : Ordered tq) (hflushes : Flushes tq t) :
    Ordered (trapqSetPosition tq t pos) := by
  have hflushed := h.finalize neverTime 0
  obtain ⟨hnewest, hpruned⟩ := prune_spec (t := t) hflushed.kept hflushed.newestFirst
  have hend : ∀ m ∈ (trapqSetPosition tq t pos).history, 0 ≤ m.moveT ∧ m.endTime ≤ t :=
    forall_mem_cons.mpr ⟨⟨le_rfl, (add_zero t).le⟩, hpruned⟩
  refine ⟨hflushed.lasting, hflushed.contiguous, fun m hm => (hend m hm).1, ?_, ?_⟩
  · exact pairwise_cons.mpr ⟨fun m hm => (hpruned m hm).2, hnewest⟩
  · intro m' hm' m hm _
    refine (hend m' hm').2.trans ?_
    -- the first move left ends after `NEVER_TIME`, and the others do so too
    obtain ⟨done, hmoves, -, -, hleft⟩ := finalize_spec tq neverTime 0
    have hmem : m ∈ tq.moves := hmoves ▸ mem_append_right done hm
    have hnever : neverTime < m.endTime := by
      have hapart := hflushed.apart
      cases hms : (trapqFinalizeMoves tq neverTime 0).moves with
      | nil =>
        rw [show (trapqSetPosition tq t pos).moves = [] from hms] at hm
        cases hm
      | cons n ns =>
        have hn : neverTime < n.endTime := hleft n (by rw [hms]; rfl)
        rw [show (trapqSetPosition tq t pos).moves = n :: ns from hms] at hm
        rw [hms] at hapart
        rcases mem_cons.mp hm with rfl | hm
        · exact hn
        · calc neverTime < n.endTime := hn
            _ ≤ m.printTime := (pairwise_cons.mp hapart).1 m hm
            _ ≤ m.endTime := le_endTime (h.lasting m hmem)
    exact (hflushes m hmem).resolve_left (not_le.mpr hnever)

/-! ## Extraction -/

/-- A move and a range of time have time in common. -/
def Move.overlaps (startTime endTime : K) (m : Move K) : Bool :=
  decide (startTime < m.endTime) && decide (m.printTime < endTime)

omit [IsStrictOrderedRing K] in
/-- The loop is a scan that stops, a filter and a bound on the number. -/
theorem extractOld_eq (max : Int) (startTime endTime : K) (res : Int) (history : List (Move K)) :
    extractOld max startTime endTime res history =
      (((history.takeWhile (lasts Move.endTime startTime)).filter
        fun m => decide (m.printTime < endTime)).take (max - res).toNat).map Move.pull := by
  fun_induction extractOld max startTime endTime res history with
  | case1 => rw [takeWhile_nil, filter_nil, take_nil, map_nil]
  | case2 res m history hstop =>
    rcases hstop with hpast | hmax
    · rw [takeWhile_cons_of_neg (by simpa [lasts] using hpast), filter_nil, take_nil, map_nil]
    · rw [Int.toNat_of_nonpos (Int.sub_nonpos_of_le hmax), take_zero, map_nil]
  | case3 res m history hgo hend ih =>
    have hlasts : lasts Move.endTime startTime m = true :=
      decide_eq_true (not_le.mp (not_or.mp hgo).1)
    rw [ih, takeWhile_cons_of_pos hlasts, filter_cons_of_neg (by simpa using hend)]
  | case4 res m history hgo hend ih =>
    have hlasts : lasts Move.endTime startTime m = true :=
      decide_eq_true (not_le.mp (not_or.mp hgo).1)
    have hcount : (max - res).toNat = (max - (res + 1)).toNat + 1 := by omega
    rw [ih, takeWhile_cons_of_pos hlasts, filter_cons_of_pos (by simpa using hend),
      hcount, take_succ_cons, map_cons]

/-- `trapq_extract_old` returns what overlaps the range, up to `max` moves. -/
theorem Ordered.extractOld (h : Ordered tq) (max : Int) (startTime endTime : K) :
    trapqExtractOld tq max startTime endTime =
      ((tq.history.filter (Move.overlaps startTime endTime)).take max.toNat).map Move.pull := by
  have hscan := Span.NewestFirst.filter_takeWhile h.newestFirst
    (fun m hm => le_endTime (h.kept m hm)) startTime fun m => decide (m.printTime < endTime)
  rw [trapqExtractOld, extractOld_eq, Int.sub_zero, hscan]
  rfl

/-! ## Runs -/

/-- A queue, with the end of the previous append and the last set position time. -/
structure World (K : Type) where
  tq : Queue K
  ended : WithBot K
  placed : WithBot K

/-- The calls. -/
inductive Op (K : Type) where
  | append (a : Append K)
  | checkSentinels
  | finalizeMoves (printTime clearHistoryTime : K)
  | setPosition (printTime : K) (pos : Coord K)

/-- An empty queue. -/
def World.init : World K := ⟨trapqAlloc, ⊥, ⊥⟩

/-- One call. -/
def World.step (w : World K) : Op K → World K
  | .append a => { w with tq := trapqAppend w.tq a, ended := a.endTime }
  | .checkSentinels => { w with tq := trapqCheckSentinels w.tq }
  | .finalizeMoves t clear => { w with tq := trapqFinalizeMoves w.tq t clear }
  | .setPosition t pos => { w with tq := trapqSetPosition w.tq t pos, placed := t }

/-- An append starts no earlier than the end of the previous one and than the last set
    position time. -/
def World.Legal (w : World K) : Op K → Prop
  | .append a => a.Lasting ∧ w.ended ≤ a.printTime ∧ w.placed ≤ a.printTime
  | _ => True

/-- The null move of an append fills the gap, and a position change flushes the queue. -/
def World.Meets (w : World K) : Op K → Prop
  | .append a => ¬ Skips w.tq a
  | .setPosition t _ => Flushes w.tq t
  | _ => True

/-- The worlds reached by calls that are `ok`. -/
inductive Reached (ok : World K → Op K → Prop) : World K → Prop where
  | init : Reached ok World.init
  | step {w : World K} (op : Op K) : Reached ok w → ok w op → Reached ok (w.step op)

/-- Nothing in the queue or in the history is later than what is known to have ended. -/
structure World.Ordered (w : World K) : Prop where
  queue : Trapq.Ordered w.tq
  moves : ∀ m ∈ w.tq.moves, (m.endTime : WithBot K) ≤ w.ended
  history : ∀ m ∈ w.tq.history, (m.endTime : WithBot K) ≤ max w.ended w.placed

variable {w : World K} {op : Op K}

omit [IsStrictOrderedRing K] in
theorem World.Ordered.init : (World.init : World K).Ordered where
  queue :=
    { lasting := nofun
      contiguous := isChain_nil
      kept := nofun
      newestFirst := Pairwise.nil
      past := nofun }
  moves := nofun
  history := nofun

omit [IsStrictOrderedRing K] in
/-- A legal append starts after all there is. -/
theorem World.Ordered.later (h : w.Ordered) (hlegal : w.Legal (.append a)) :
    (∀ m ∈ w.tq.moves, m.endTime ≤ a.printTime) ∧ ∀ m ∈ w.tq.history, m.endTime ≤ a.printTime := by
  obtain ⟨-, hended, hplaced⟩ := hlegal
  refine ⟨fun m hm => ?_, fun m hm => ?_⟩
  · exact WithBot.coe_le_coe.mp ((h.moves m hm).trans hended)
  · exact WithBot.coe_le_coe.mp ((h.history m hm).trans (max_le hended hplaced))

/-- One call keeps the order. -/
theorem World.Ordered.step (h : w.Ordered) (hlegal : w.Legal op) (hmeets : w.Meets op) :
    (w.step op).Ordered := by
  cases op with
  | append a =>
    obtain ⟨hmoves, hhistory⟩ := h.later hlegal
    obtain ⟨hlasting, hended, -⟩ := hlegal
    have hend : a.printTime ≤ a.endTime := by
      obtain ⟨haccel, hcruise, hdecel⟩ := hlasting
      rw [Append.endTime]
      linarith
    have hlater : (w.ended : WithBot K) ≤ a.endTime := hended.trans (WithBot.coe_le_coe.mpr hend)
    refine ⟨h.queue.append hlasting hmoves hhistory hmeets, ?_, ?_⟩
    · show ∀ m ∈ (trapqAppend w.tq a).moves, _
      rw [trapqAppend_moves]
      exact forall_mem_append.mpr ⟨fun m hm => (h.moves m hm).trans hlater,
        fun m hm => WithBot.coe_le_coe.mpr (added_spec hlasting m hm).2.1⟩
    · show ∀ m ∈ (trapqAppend w.tq a).history, _
      rw [trapqAppend_history]
      exact fun m hm => (h.history m hm).trans (max_le_max_right _ hlater)
  | checkSentinels =>
    have hq := h.queue
    obtain ⟨hmoves, hhistory⟩ := checkSentinels_frame w.tq
    refine ⟨⟨?_, ?_, ?_, ?_, ?_⟩, ?_, ?_⟩
    all_goals simp only [World.step, hmoves, hhistory]
    exacts [hq.lasting, hq.contiguous, hq.kept, hq.newestFirst, hq.past, h.moves, h.history]
  | finalizeMoves t clear =>
    obtain ⟨done, hmoves, hsub, -, -⟩ := finalize_spec w.tq t clear
    refine ⟨h.queue.finalize t clear, fun m hm => ?_, fun m hm => ?_⟩
    · exact h.moves m (hmoves ▸ mem_append_right done hm)
    · rcases mem_append.mp (hsub.subset hm) with hm | hm
      · have hm := (mem_filter.mp (mem_reverse.mp hm)).1
        exact (h.moves m (hmoves ▸ mem_append_left _ hm)).trans (le_max_left _ _)
      · exact h.history m hm
  | setPosition t pos =>
    obtain ⟨done, hmoves, -, -, -⟩ := finalize_spec w.tq neverTime 0
    have hflushed := h.queue.finalize neverTime 0
    have hpruned := (prune_spec (t := t) hflushed.kept hflushed.newestFirst).2
    refine ⟨h.queue.setPosition hmeets, fun m hm => ?_, ?_⟩
    · exact h.moves m (hmoves ▸ mem_append_right done hm)
    · refine forall_mem_cons.mpr ⟨?_, fun m hm => ?_⟩
      · exact (WithBot.coe_le_coe.mpr (add_zero t).le).trans (le_max_right _ _)
      · exact (WithBot.coe_le_coe.mpr (hpruned m hm).2).trans (le_max_right _ _)

/-- And so does every run. -/
theorem Reached.ordered (h : Reached (fun w op => w.Legal op ∧ w.Meets op) w) : w.Ordered := by
  induction h with
  | init => exact World.Ordered.init
  | step op _ hok ih => exact ih.step hok.1 hok.2

/-! ## What holds of a queue -/

/-- The moves are contiguous, the phases of an append join, behind a null move at most, and what
    is extracted from the history, newest first, is what overlaps the range, up to `max`. -/
structure Sound (tq : Queue K) : Prop where
  contiguous : Contiguous tq.moves
  joins : ∀ a : Append K, ∃ gap phases,
    (trapqAppend tq a).moves = tq.moves ++ (gap ++ phases) ∧
      gap.length ≤ 1 ∧ (∀ g ∈ gap, ¬ g.Moving) ∧
      phases.map Move.moveT = [a.accelT, a.cruiseT, a.decelT].filter (fun d => d ≠ 0) ∧
      (∀ m ∈ phases.head?, m.printTime = a.printTime ∧ m.startPos = a.startPos) ∧
      phases.IsChain fun m n => m.endTime = n.printTime ∧ m.Joins n
  newestFirst : NewestFirst tq.history
  extractOld : ∀ (max : Int) (startTime endTime : K),
    trapqExtractOld tq max startTime endTime =
      ((tq.history.filter (Move.overlaps startTime endTime)).take max.toNat).map Move.pull

theorem Ordered.sound (h : Ordered tq) : Sound tq where
  contiguous := h.contiguous
  joins a := by
    have hstill : ∀ g ∈ a.moves.head?.elim [] tq.gap, ¬ g.Moving := by
      intro g hg
      obtain ⟨-, -, hstill, -⟩ := gap_spec hg
      exact hstill
    exact ⟨_, a.moves, trapqAppend_moves tq a, gap_length tq a.moves.head?, hstill,
      phaseMoves_moveT a.phases, phaseMoves_start a.phases, phaseMoves_chain a.phases⟩
  newestFirst := h.newestFirst
  extractOld := h.extractOld

/-- **THE MOTION QUEUE STAYS CONTIGUOUS** in every run of legal calls in which each null move
    fills its gap and each position change flushes; the next append keeps it so exactly if its
    null move does. -/
theorem queue_stays_contiguous (h : Reached (fun w op => w.Legal op ∧ w.Meets op) w) :
    Sound w.tq ∧ ∀ a, w.Legal (.append a) →
      (Contiguous (trapqAppend w.tq a).moves ↔ w.Meets (.append a)) := by
  have hordered := h.ordered
  refine ⟨hordered.queue.sound, fun a hlegal => ?_⟩
  exact contiguous_append_iff hordered.queue.contiguous (hordered.later hlegal).1

/-- A trapezoid along x, from standing to standing. -/
def trapezoid (printTime : ℚ) : Append ℚ := ⟨printTime, 1, 1, 1, ⟨0, 0, 0⟩, ⟨1, 0, 0⟩, 0, 2, 2⟩

theorem lasting_trapezoid (printTime : ℚ) : (trapezoid printTime).Lasting :=
  ⟨zero_le_one, zero_le_one, zero_le_one⟩

/-- A position change in the middle of a trapezoid, a gap and another trapezoid. -/
theorem queue_stays_contiguous_interrupted :
    Sound ((((World.init.step (.append (trapezoid 2))).step (.finalizeMoves 3 0)).step
      (.setPosition 4 ⟨7, 0, 0⟩)).step (.append (trapezoid 9))).tq := by
  have h₁ : Reached (fun w op => w.Legal op ∧ w.Meets op)
      (World.init.step (.append (trapezoid 2))) := by
    exact .step _ .init ⟨⟨lasting_trapezoid 2, bot_le, bot_le⟩, not_skips_of_nil rfl⟩
  have h₂ := Reached.step (.finalizeMoves 3 0) h₁ ⟨trivial, trivial⟩
  have h₃ := Reached.step (.setPosition 4 ⟨7, 0, 0⟩) h₂ ⟨trivial, by
    show ∀ m ∈ _, _
    decide +kernel⟩
  refine (queue_stays_contiguous (.step (.append _) h₃ ⟨⟨lasting_trapezoid 9, ?_, ?_⟩, ?_⟩)).1
  · exact WithBot.coe_le_coe.mpr (by decide +kernel)
  · exact WithBot.coe_le_coe.mpr (by decide +kernel)
  · refine not_skips_of_nil ?_
    show (trapqSetPosition (trapqFinalizeMoves (trapqAppend trapqAlloc (trapezoid 2)) 3 0) 4
      ⟨7, 0, 0⟩).moves = []
    decide +kernel

/-- A move from time zero on is taken for the head sentinel: the next null move starts three
    seconds after it ends. -/
theorem gap_after_time_zero : ¬ ∀ w : World ℚ, Reached World.Legal w → Sound w.tq := by
  intro h
  have hw : Reached World.Legal ((World.init.step (.append { trapezoid 0 with
      accelT := 0, decelT := 0 })).step (.append (trapezoid 5))) := by
    refine .step _ (.step _ .init ⟨⟨le_rfl, zero_le_one, le_rfl⟩, bot_le, bot_le⟩)
      ⟨lasting_trapezoid 5, ?_, bot_le⟩
    exact WithBot.coe_le_coe.mpr (by decide +kernel)
  have hcontiguous := (h _ hw).contiguous
  revert hcontiguous
  show ¬ List.IsChain _ _
  decide +kernel

end Trapq
