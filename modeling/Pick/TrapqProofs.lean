import Pick.SpanProofs
import Pick.NumberProofs

/-! # The motion queue (`klippy/chelper/trapq.c`)

A `trapq` holds the moves that are still to be stepped, between two sentinels, and a
history of those that are done.  A move has constant acceleration along a line.
`trapq_append` adds the phases of one trapezoid and a null move in front of them when
there is a gap in time; `trapq_finalize_moves` passes moves on to the history and
`trapq_set_position` cuts the history off.  Numbers are exact. -/

namespace Trapq

open List

variable {K : Type} [Field K] [LinearOrder K]

/-! ## Moves -/

/-- `struct coord`. -/
structure Coord (K : Type) where
  x : K
  y : K
  z : K
  deriving DecidableEq

/-- `struct move`. -/
structure Move (K : Type) where
  printTime : K
  moveT : K
  startV : K
  halfAccel : K
  startPos : Coord K
  axesR : Coord K
  deriving DecidableEq

/-- `move_alloc`: all fields are zero. -/
def moveAlloc : Move K := ⟨0, 0, 0, 0, ⟨0, 0, 0⟩, ⟨0, 0, 0⟩⟩

/-- `move_get_distance`. -/
def moveGetDistance (m : Move K) (moveTime : K) : K :=
  (m.startV + m.halfAccel * moveTime) * moveTime

/-- `move_get_coord`. -/
def moveGetCoord (m : Move K) (moveTime : K) : Coord K :=
  let moveDist := moveGetDistance m moveTime
  ⟨m.startPos.x + m.axesR.x * moveDist, m.startPos.y + m.axesR.y * moveDist,
    m.startPos.z + m.axesR.z * moveDist⟩

/-- When a move is over: `m->print_time + m->move_t`. -/
def Move.endTime (m : Move K) : K := m.printTime + m.moveT

/-- `m->start_v || m->half_accel`. -/
def Move.Moving (m : Move K) : Prop := m.startV ≠ 0 ∨ m.halfAccel ≠ 0

instance (m : Move K) : Decidable m.Moving := inferInstanceAs (Decidable (_ ∨ _))

/-! ## The queue -/

/-- `NEVER_TIME`. -/
def neverTime : K := 99999999999999999 / 10

/-- `MAX_NULL_MOVE`. -/
def maxNullMove : K := 1

/-- `struct trapq`.  `moves` are those between the sentinels; the head sentinel never changes. -/
structure Queue (K : Type) where
  moves : List (Move K)
  tailSentinel : Move K
  history : List (Move K)
  deriving DecidableEq

/-- `head_sentinel`. -/
def headSentinel : Move K := moveAlloc

/-- `trapq_alloc`. -/
def trapqAlloc : Queue K where
  moves := []
  tailSentinel := { moveAlloc with printTime := neverTime, moveT := neverTime }
  history := []

/-- `trapq_check_sentinels`. -/
def trapqCheckSentinels (tq : Queue K) : Queue K :=
  if tq.tailSentinel.printTime ≠ 0 then tq
  else match tq.moves.getLast? with
    | none => { tq with tailSentinel := { tq.tailSentinel with printTime := neverTime } }
    | some m =>
      { tq with
        tailSentinel :=
          { tq.tailSentinel with
            printTime := m.endTime
            startPos := moveGetCoord m m.moveT } }

/-- The move in front of the tail sentinel. -/
def Queue.prev (tq : Queue K) : Move K := tq.moves.getLast?.getD headSentinel

/-- The null move between `prev` and `m`. -/
def nullMove (prev m : Move K) : Move K :=
  -- the first null move is limited
  let printTime :=
    if prev.printTime = 0 ∧ m.printTime > maxNullMove then m.printTime - maxNullMove
    else prev.endTime
  { (moveAlloc : Move K) with
    printTime
    moveT := m.printTime - printTime
    startPos := m.startPos }

/-- What is added in front of `m`. -/
def Queue.gap (tq : Queue K) (m : Move K) : List (Move K) :=
  if tq.prev.endTime < m.printTime then [nullMove tq.prev m] else []

/-- `trapq_add_move`. -/
def trapqAddMove (tq : Queue K) (m : Move K) : Queue K :=
  { tq with
    moves := tq.moves ++ (tq.gap m ++ [m])
    tailSentinel := { tq.tailSentinel with printTime := 0 } }

/-- The arguments of `trapq_append`. -/
structure Append (K : Type) where
  printTime : K
  accelT : K
  cruiseT : K
  decelT : K
  startPos : Coord K
  axesR : Coord K
  startV : K
  cruiseV : K
  accel : K

/-- One phase of a trapezoid. -/
structure Phase (K : Type) where
  moveT : K
  startV : K
  halfAccel : K

/-- `trapq_append` between two phases. -/
structure Cursor (K : Type) where
  tq : Queue K
  printTime : K
  startPos : Coord K

/-- The move of a phase. -/
def Cursor.move (c : Cursor K) (axesR : Coord K) (p : Phase K) : Move K where
  printTime := c.printTime
  moveT := p.moveT
  startV := p.startV
  halfAccel := p.halfAccel
  startPos := c.startPos
  axesR := axesR

/-- One of the three blocks of `trapq_append`. -/
def addPhase (axesR : Coord K) (c : Cursor K) (p : Phase K) : Cursor K :=
  if p.moveT ≠ 0 then
    { tq := trapqAddMove c.tq (c.move axesR p)
      printTime := c.printTime + p.moveT
      startPos := moveGetCoord (c.move axesR p) p.moveT }
  else c

/-- The three phases. -/
def Append.phases (a : Append K) : List (Phase K) :=
  [⟨a.accelT, a.startV, 1 / 2 * a.accel⟩, ⟨a.cruiseT, a.cruiseV, 0⟩,
    ⟨a.decelT, a.cruiseV, -(1 / 2) * a.accel⟩]

/-- `trapq_append`. -/
def trapqAppend (tq : Queue K) (a : Append K) : Queue K :=
  (a.phases.foldl (addPhase a.axesR) ⟨tq, a.printTime, a.startPos⟩).tq

/-- The first loop of `trapq_finalize_moves`: the moves left and the new history. -/
def expire (printTime : K) : List (Move K) → List (Move K) → List (Move K) × List (Move K)
  | [], history => ([], history)
  | m :: moves, history =>
    if m.endTime > printTime then (m :: moves, history)
    else expire printTime moves (if m.Moving then m :: history else history)

/-- The second loop: from the oldest on, but never the latest. -/
def clearHistory (clearHistoryTime : K) : List (Move K) → List (Move K)
  | [] => []
  | latest :: older => latest :: older.rdropWhile fun m => decide (m.endTime ≤ clearHistoryTime)

/-- `trapq_finalize_moves`. -/
def trapqFinalizeMoves (tq : Queue K) (printTime clearHistoryTime : K) : Queue K :=
  let left := expire printTime tq.moves tq.history
  { moves := left.1
    tailSentinel :=
      if left.1 = [] then { tq.tailSentinel with printTime := neverTime }
      else tq.tailSentinel
    history := clearHistory clearHistoryTime left.2 }

/-- The loop of `trapq_set_position`. -/
def prune (printTime : K) : List (Move K) → List (Move K)
  | [] => []
  | m :: history =>
    if m.printTime < printTime then
      (if m.endTime > printTime then { m with moveT := printTime - m.printTime } else m) :: history
    else prune printTime history

/-- `trapq_set_position`. -/
def trapqSetPosition (tq : Queue K) (printTime : K) (pos : Coord K) : Queue K :=
  let flushed := trapqFinalizeMoves tq neverTime 0
  let marker := { (moveAlloc : Move K) with printTime := printTime, startPos := pos }
  { flushed with history := marker :: prune printTime flushed.history }

/-- `struct pull_move`. -/
structure PullMove (K : Type) where
  printTime : K
  moveT : K
  startV : K
  accel : K
  start : Coord K
  r : Coord K
  deriving DecidableEq

/-- The `pull_move` of a move. -/
def Move.pull (m : Move K) : PullMove K where
  printTime := m.printTime
  moveT := m.moveT
  startV := m.startV
  accel := 2 * m.halfAccel
  start := m.startPos
  r := m.axesR

/-- The loop of `trapq_extract_old`, with `res` moves returned so far. -/
def extractOld (max : Int) (startTime endTime : K) :
    Int → List (Move K) → List (PullMove K)
  | _, [] => []
  | res, m :: history =>
    if startTime ≥ m.endTime ∨ res ≥ max then []
    else if endTime ≤ m.printTime then extractOld max startTime endTime res history
    else m.pull :: extractOld max startTime endTime (res + 1) history

/-- `trapq_extract_old`. -/
def trapqExtractOld (tq : Queue K) (max : Int) (startTime endTime : K) : List (PullMove K) :=
  extractOld max startTime endTime 0 tq.history

/-! ## What an append adds -/

variable {tq : Queue K} {m n : Move K} {t : K} {pos axesR : Coord K} {c : Cursor K}

theorem checkSentinels_frame (tq : Queue K) :
    (trapqCheckSentinels tq).moves = tq.moves ∧ (trapqCheckSentinels tq).history = tq.history := by
  rw [trapqCheckSentinels]
  split
  · exact ⟨rfl, rfl⟩
  · split
    · exact ⟨rfl, rfl⟩
    · exact ⟨rfl, rfl⟩

theorem prev_addMove : (trapqAddMove tq m).prev = m := by
  show (tq.moves ++ (tq.gap m ++ [m])).getLast?.getD headSentinel = m
  rw [← append_assoc, getLast?_append]
  rfl

/-- Where no time is left open there is no null move. -/
theorem gap_of_le (h : m.printTime ≤ tq.prev.endTime) : tq.gap m = [] := if_neg (not_lt.mpr h)

theorem gap_of_lt (h : tq.prev.endTime < m.printTime) : tq.gap m = [nullMove tq.prev m] := if_pos h

theorem gap_length (tq : Queue K) (o : Option (Move K)) : (o.elim [] tq.gap).length ≤ 1 := by
  cases o with
  | none => exact Nat.zero_le _
  | some m =>
    show (tq.gap m).length ≤ 1
    rw [Queue.gap]
    split
    · exact Nat.le_refl _
    · exact Nat.zero_le _

/-- A null move between the queue and the first of some moves. -/
theorem mem_gap {g : Move K} {o : Option (Move K)} (h : g ∈ o.elim [] tq.gap) :
    ∃ m ∈ o, tq.prev.endTime < m.printTime ∧ g = nullMove tq.prev m := by
  cases o with
  | none => exact nomatch h
  | some m =>
    have h : g ∈ tq.gap m := h
    by_cases hlt : tq.prev.endTime < m.printTime
    · rw [gap_of_lt hlt, mem_singleton] at h
      exact ⟨m, rfl, hlt, h⟩
    · rw [gap_of_le (not_lt.mp hlt)] at h
      cases h

/-- The moves of the phases from the time `t` on. -/
def phaseMoves (axesR : Coord K) : K → Coord K → List (Phase K) → List (Move K)
  | _, _, [] => []
  | t, pos, p :: ps =>
    if p.moveT ≠ 0 then
      let m : Move K := ⟨t, p.moveT, p.startV, p.halfAccel, pos, axesR⟩
      m :: phaseMoves axesR m.endTime (moveGetCoord m m.moveT) ps
    else phaseMoves axesR t pos ps

/-- The moves that one `trapq_append` makes, without the null move. -/
def Append.moves (a : Append K) : List (Move K) :=
  phaseMoves a.axesR a.printTime a.startPos a.phases

variable (ps : List (Phase K))

theorem phaseMoves_start :
    ∀ m ∈ (phaseMoves axesR t pos ps).head?, m.printTime = t ∧ m.startPos = pos := by
  fun_induction phaseMoves axesR t pos ps with
  | case1 => exact nofun
  | case2 t pos p ps hp m ih =>
    intro n hn
    cases hn
    exact ⟨rfl, rfl⟩
  | case3 t pos p ps hp ih => exact ih

/-- Where the last move ends they follow without a null move. -/
theorem gap_phaseMoves (h : c.tq.prev.endTime = c.printTime) :
    (phaseMoves axesR c.printTime c.startPos ps).head?.elim [] c.tq.gap = [] := by
  refine eq_nil_iff_forall_not_mem.mpr fun g hg => ?_
  obtain ⟨n, hn, hlt, -⟩ := mem_gap hg
  rw [h, (phaseMoves_start ps n hn).1] at hlt
  exact lt_irrefl _ hlt

theorem foldl_addPhase : (ps.foldl (addPhase axesR) c).tq.moves =
      c.tq.moves ++ ((phaseMoves axesR c.printTime c.startPos ps).head?.elim [] c.tq.gap ++
        phaseMoves axesR c.printTime c.startPos ps) := by
  induction ps generalizing c with
  | nil => exact (append_nil _).symm
  | cons p ps ih =>
    rw [foldl_cons, phaseMoves, addPhase]
    by_cases hp : p.moveT ≠ 0
    · rw [if_pos hp, if_pos hp, ih, gap_phaseMoves]
      · show (c.tq.moves ++ (c.tq.gap (c.move axesR p) ++ [c.move axesR p])) ++ _ = _
        rw [append_assoc, append_assoc]
        rfl
      · exact congrArg Move.endTime prev_addMove
    · rw [if_neg hp, if_neg hp, ih]

/-- **WHAT `trapq_append` ADDS**: its own moves, and a null move in front of the first one
    where there is a gap. -/
theorem trapqAppend_moves (tq : Queue K) (a : Append K) :
    (trapqAppend tq a).moves = tq.moves ++ (a.moves.head?.elim [] tq.gap ++ a.moves) :=
  foldl_addPhase a.phases

theorem foldl_addPhase_history : (ps.foldl (addPhase axesR) c).tq.history = c.tq.history := by
  induction ps generalizing c with
  | nil => rfl
  | cons p ps ih =>
    rw [foldl_cons, ih, addPhase]
    split
    · rfl
    · rfl

theorem trapqAppend_history (tq : Queue K) (a : Append K) :
    (trapqAppend tq a).history = tq.history :=
  foldl_addPhase_history a.phases

/-! ## The phases -/

/-- `n` starts where `m` stops. -/
def Move.Joins (m n : Move K) : Prop := n.startPos = moveGetCoord m m.moveT

/-- The moves of the phases follow each other in time and in position. -/
theorem phaseMoves_chain :
    (phaseMoves axesR t pos ps).IsChain fun m n => m.endTime = n.printTime ∧ m.Joins n := by
  fun_induction phaseMoves axesR t pos ps with
  | case1 => exact isChain_nil
  | case2 t pos p ps hp m ih =>
    refine isChain_cons.mpr ⟨?_, ih⟩
    intro n hn
    obtain ⟨htime, hpos⟩ := phaseMoves_start ps n hn
    exact ⟨htime.symm, hpos⟩
  | case3 t pos p ps hp ih => exact ih

theorem phaseMoves_moveT : (phaseMoves axesR t pos ps).map Move.moveT =
      (ps.map Phase.moveT).filter (fun d => d ≠ 0) := by
  fun_induction phaseMoves axesR t pos ps with
  | case1 => rfl
  | case2 t pos p ps hp m ih => rw [map_cons, map_cons, filter_cons_of_pos (by simpa using hp), ih]
  | case3 t pos p ps hp ih => rw [map_cons, filter_cons_of_neg (by simpa using hp), ih]

/-! ## The null move -/

theorem nullMove_endTime (prev m : Move K) : (nullMove prev m).endTime = m.printTime :=
  add_sub_cancel _ _

theorem not_moving_nullMove (prev m : Move K) : ¬ (nullMove prev m).Moving := by
  rintro (h | h)
  · exact h rfl
  · exact h rfl

/-- Where the null move starts: after `m`, unless `m` is taken for the sentinel. -/
theorem nullMove_printTime :
    m.endTime = (nullMove m n).printTime ↔
      ¬ (m.printTime = 0 ∧ maxNullMove < n.printTime ∧ m.endTime ≠ n.printTime - maxNullMove) := by
  rw [nullMove]
  dsimp only
  split
  · rename_i h
    exact ⟨fun heq hne => hne.2.2 heq, fun hne => not_not.mp fun heq => hne ⟨h.1, h.2, heq⟩⟩
  · rename_i h
    exact ⟨fun _ hne => h ⟨hne.1, hne.2.1⟩, fun _ => rfl⟩

/-! ## What a finalization does -/

theorem expire_spec (t : K) (moves history : List (Move K)) :
    ∃ done, moves = done ++ (expire t moves history).1 ∧
      (expire t moves history).2 = (done.filter fun m => decide m.Moving).reverse ++ history ∧
      (∀ m ∈ done, m.endTime ≤ t) ∧ ∀ m ∈ (expire t moves history).1.head?, t < m.endTime := by
  fun_induction expire t moves history with
  | case1 history => exact ⟨[], rfl, rfl, nofun, nofun⟩
  | case2 m moves history hm =>
    refine ⟨[], rfl, rfl, nofun, ?_⟩
    intro n hn
    cases hn
    exact hm
  | case3 m moves history hm ih =>
    obtain ⟨done, hmoves, hhistory, hdone, hleft⟩ := ih
    refine ⟨m :: done, congrArg (m :: ·) hmoves, ?_, ?_, hleft⟩
    · rw [hhistory]
      by_cases hmoving : m.Moving
      · rw [if_pos hmoving, filter_cons_of_pos (by simpa using hmoving), reverse_cons, append_assoc]
        rfl
      · rw [if_neg hmoving, filter_cons_of_neg (by simpa using hmoving)]
    · exact forall_mem_cons.mpr ⟨not_lt.mp hm, hdone⟩

theorem clearHistory_sublist (clear : K) (history : List (Move K)) :
    (clearHistory clear history).Sublist history := by
  cases history with
  | nil => exact Sublist.refl _
  | cons latest older => exact (List.rdropWhile_prefix _ older).sublist.cons_cons latest

/-- What `trapq_finalize_moves` does: the moves that are over go, and those that moved
    are put in front of the history, of which some may be dropped. -/
theorem finalize_spec (tq : Queue K) (t clear : K) :
    ∃ done, tq.moves = done ++ (trapqFinalizeMoves tq t clear).moves ∧
      (trapqFinalizeMoves tq t clear).history.Sublist
        ((done.filter fun m => decide m.Moving).reverse ++ tq.history) ∧
      (∀ m ∈ done, m.endTime ≤ t) ∧
      ∀ m ∈ (trapqFinalizeMoves tq t clear).moves.head?, t < m.endTime := by
  obtain ⟨done, hmoves, hhistory, hdone, hleft⟩ := expire_spec t tq.moves tq.history
  exact ⟨done, hmoves, hhistory ▸ clearHistory_sublist clear _, hdone, hleft⟩

/-! ## Durations -/

variable [IsStrictOrderedRing K]

/-- No phase starts before `t`, lasts less than nothing or ends after the last one. -/
theorem phaseMoves_within (hps : ∀ p ∈ ps, 0 ≤ p.moveT) :
    ∀ m ∈ phaseMoves axesR t pos ps,
      t ≤ m.printTime ∧ 0 ≤ m.moveT ∧ m.endTime ≤ t + (ps.map Phase.moveT).sum := by
  fun_induction phaseMoves axesR t pos ps with
  | case1 => exact nofun
  | case2 t pos p ps hp m ih =>
    obtain ⟨hp₀, hps⟩ := forall_mem_cons.mp hps
    have hsum : 0 ≤ (ps.map Phase.moveT).sum := sum_nonneg (forall_mem_map.mpr hps)
    rw [map_cons, sum_cons]
    refine forall_mem_cons.mpr ⟨⟨le_rfl, hp₀, ?_⟩, fun n hn => ?_⟩
    · show t + p.moveT ≤ _
      linarith
    · obtain ⟨hstart, hlast, hend⟩ := ih hps n hn
      have hstart : t + p.moveT ≤ n.printTime := hstart
      have hend : n.endTime ≤ t + p.moveT + _ := hend
      exact ⟨by linarith, hlast, by linarith⟩
  | case3 t pos p ps hp ih =>
    rw [map_cons, sum_cons, not_not.mp hp, zero_add]
    exact ih (forall_mem_cons.mp hps).2

/-- The durations of the phases. -/
def Append.Lasting (a : Append K) : Prop := 0 ≤ a.accelT ∧ 0 ≤ a.cruiseT ∧ 0 ≤ a.decelT

/-- When the last phase is over. -/
def Append.endTime (a : Append K) : K := a.printTime + a.accelT + a.cruiseT + a.decelT

theorem Append.moves_within {a : Append K} (h : a.Lasting) :
    ∀ m ∈ a.moves, a.printTime ≤ m.printTime ∧ 0 ≤ m.moveT ∧ m.endTime ≤ a.endTime := by
  obtain ⟨haccel, hcruise, hdecel⟩ := h
  have hps : ∀ p ∈ a.phases, 0 ≤ p.moveT := by
    simp only [phases, forall_mem_cons]
    exact ⟨haccel, hcruise, hdecel, nofun⟩
  have hsum : a.printTime + (a.phases.map Phase.moveT).sum = a.endTime := by
    show a.printTime + (a.accelT + (a.cruiseT + (a.decelT + 0))) = _
    rw [Append.endTime]
    ring
  rw [← hsum]
  exact phaseMoves_within a.phases hps

theorem nullMove_moveT (h : m.endTime < n.printTime) : 0 ≤ (nullMove m n).moveT := by
  show 0 ≤ n.printTime - (nullMove m n).printTime
  rw [nullMove]
  dsimp only
  split
  · rw [sub_sub_cancel]
    exact zero_le_one
  · exact (sub_pos.mpr h).le

/-- The null move stands, does not last less than nothing and ends where the first move starts. -/
theorem gap_spec {g : Move K} {o : Option (Move K)} (h : g ∈ o.elim [] tq.gap) :
    ∃ m ∈ o, ¬ g.Moving ∧ 0 ≤ g.moveT ∧ g.endTime = m.printTime ∧ g.axesR = ⟨0, 0, 0⟩ := by
  obtain ⟨m, hm, hlt, rfl⟩ := mem_gap h
  exact ⟨m, hm, not_moving_nullMove _ _, nullMove_moveT hlt, nullMove_endTime _ _, rfl⟩

end Trapq
