import Pick.NumberProofs
import Pick.EarliestProofs

/-! # The timers of the helper threads (`klippy/chelper/pollreactor.c`)

A fixed number of timers, and `next_timer`, before which a run looks at none of
them.  A run looks at each in turn and calls those that are due.  A callback may
move any timer, and returns the next waketime of its own.

Inside of a run `next_timer` is not below the timers still to come: the run has
raised it and lowers it by each timer it passes. -/

namespace Pollreactor

open List

/-! ## Model -/

variable {n : ℕ} {K : Type*} [LinearOrder K]

/-- The timers' waketimes and `next_timer` of `struct pollreactor`. -/
abbrev Reactor (n : ℕ) (K : Type*) := Alarms (Fin n) K

/-- `pollreactor_alloc`; `never` is `PR_NEVER`. -/
def alloc (n : ℕ) (never : K) : Reactor n K := ⟨fun _ => never, never⟩

/-- `pollreactor_update_timer`. -/
def updateTimer (pr : Reactor n K) (pos : Fin n) (waketime : K) : Reactor n K :=
  pr.update pos waketime

/-- What a callback does: the updates it makes, in order, and what it returns. -/
structure Callback (n : ℕ) (K : Type*) where
  updates : List (Fin n × K)
  wake : K

/-- The reactor after updates. -/
def updateAll (pr : Reactor n K) (updates : List (Fin n × K)) : Reactor n K :=
  updates.foldl (fun pr u => updateTimer pr u.1 u.2) pr

/-- A pass of the loop in `pollreactor_check_timers`, with the timers called so far. -/
def visit (eventtime : K) (callback : Fin n → Callback n K)
    (r : Reactor n K × List (Fin n)) (i : Fin n) : Reactor n K × List (Fin n) :=
  let t := r.1.waketime i
  if t ≤ eventtime then
    let pr := updateAll r.1 (callback i).updates
    let t := (callback i).wake
    ({ pr with waketime := Function.update pr.waketime i t }.lower t, r.2 ++ [i])
  else (r.1.lower t, r.2)

/-- The loop, over some of the timers. -/
def visits (never eventtime : K) (callback : Fin n → Callback n K) (pr : Reactor n K)
    (timers : List (Fin n)) : Reactor n K × List (Fin n) :=
  timers.foldl (visit eventtime callback) (⟨pr.waketime, never⟩, [])

section Runs

variable [Field K] [FloorRing K] (never : K)

/-- `pollreactor_check_timers`: the timers it calls, and for how long to sleep. -/
def checkTimers (pr : Reactor n K) (eventtime : K) (busy : Bool)
    (callback : Fin n → Callback n K) : Reactor n K × List (Fin n) × ℤ :=
  let (pr, called) :=
    if pr.nextTimer ≤ eventtime then
      visits never eventtime callback pr (List.finRange n)
    else (pr, [])
  let timeout := ⌈(pr.nextTimer - eventtime) * 1000⌉
  (pr, called, if busy || !called.isEmpty then 0
    else if timeout < 1 then 1 else if 1000 < timeout then 1000 else timeout)

/-- An update from outside of a run, or a run. -/
inductive Op (n : ℕ) (K : Type*) where
  | update (pos : Fin n) (waketime : K)
  | check (eventtime : K) (busy : Bool) (callback : Fin n → Callback n K)

/-- One operation. -/
def step (pr : Reactor n K) : Op n K → Reactor n K
  | .update pos waketime => updateTimer pr pos waketime
  | .check eventtime busy callback => (checkTimers never pr eventtime busy callback).1

/-- A reactor from its start on. -/
def run (ops : List (Op n K)) : Reactor n K := ops.foldl (step never) (alloc n never)

end Runs

/-! ## The loop -/

variable {never : K} {pr : Reactor n K} {i j : Fin n} {timers : List (Fin n)}
  {r : Reactor n K × List (Fin n)} {P : Fin n → Prop}

theorem covers_updateAll (h : pr.Covers P) (updates : List (Fin n × K)) :
    (updateAll pr updates).Covers P :=
  List.foldlRecOn (motive := (Alarms.Covers · P)) updates _ h fun _ h u _ =>
    (h.update u.1 u.2).mono fun _ => .inl

section Loop

variable (eventtime : K) (callback : Fin n → Callback n K)

/-- **A PASS** covers the timer it looks at, whatever its callback has moved. -/
theorem covers_visit (h : r.1.Covers P) :
    (visit eventtime callback r i).1.Covers fun j => P j ∨ j = i := by
  rw [visit]
  split
  · exact (covers_updateAll h _).update i _
  · exact h.lower i

theorem covers_foldl (h : r.1.Covers P) :
    (timers.foldl (visit eventtime callback) r).1.Covers fun j => P j ∨ j ∈ timers := by
  induction timers generalizing r P with
  | nil => exact h.mono fun j hj => hj.resolve_right not_mem_nil
  | cons i timers ih =>
    refine (ih (covers_visit eventtime callback h)).mono fun j hj => ?_
    rwa [mem_cons, ← or_assoc] at hj

/-! ### The calls -/

/-- The timers called are some of those looked at, in order. -/
theorem called_foldl (r : Reactor n K × List (Fin n)) (timers : List (Fin n)) :
    ∃ called, called.Sublist timers ∧
      (timers.foldl (visit eventtime callback) r).2 = r.2 ++ called := by
  induction timers generalizing r with
  | nil => exact ⟨[], .slnil, (append_nil _).symm⟩
  | cons i timers ih =>
    obtain ⟨called, hsub, heq⟩ := ih (visit eventtime callback r i)
    rw [foldl_cons, heq, visit]
    split
    · exact ⟨i :: called, hsub.cons_cons i, append_assoc ..⟩
    · exact ⟨called, hsub.cons i, rfl⟩

/-- A waketime after updates is that of the last of them, or the old one. -/
theorem waketime_updateAll (pr : Reactor n K) (updates : List (Fin n × K)) (i : Fin n) :
    (updateAll pr updates).waketime i = (updates.reverse.lookup i).getD (pr.waketime i) := by
  induction updates using List.reverseRecOn with
  | nil => rfl
  | append_singleton updates u ih =>
    obtain ⟨j, w⟩ := u
    rw [updateAll, foldl_append, reverse_append]
    show Function.update (updateAll pr updates).waketime j w i =
      (((j, w) :: updates.reverse).lookup i).getD _
    by_cases heq : i = j
    · rw [heq, Function.update_self, lookup_cons_self, Option.getD_some]
    · rw [Function.update_of_ne heq, ih, lookup_cons, beq_false_of_ne heq]

/-- The updates made by the timers that are called, in order. -/
def made (called : List (Fin n)) : List (Fin n × K) := called.flatMap fun j => (callback j).updates

/-- **THE LOOP MOVES A TIMER** that it does not look at by the updates of its callbacks alone. -/
theorem waketime_foldl (timers : List (Fin n)) (hi : i ∉ timers)
    (hr : r.1.waketime i = (updateAll pr (made callback r.2)).waketime i) :
    (timers.foldl (visit eventtime callback) r).1.waketime i =
      (updateAll pr (made callback (timers.foldl (visit eventtime callback) r).2)).waketime i := by
  induction timers generalizing r with
  | nil => exact hr
  | cons j timers ih =>
    obtain ⟨hne, hi⟩ := not_or.mp (mt mem_cons.mpr hi)
    refine ih hi ?_
    rw [visit]
    split
    · dsimp only [Alarms.lower]
      have hmade : updateAll pr (made callback (r.2 ++ [j])) =
          updateAll (updateAll pr (made callback r.2)) (callback j).updates := by
        rw [made, flatMap_append, flatMap_singleton, updateAll, foldl_append]
        rfl
      rw [Function.update_of_ne hne, waketime_updateAll, hr, hmade,
        waketime_updateAll _ (callback j).updates]
    · exact hr

/-- The last update of timer `i` by the timers called before it moves it behind the run. -/
def Postponed (called : List (Fin n)) (i : Fin n) : Prop :=
  ∃ w, (made callback (called.filter (· < i))).reverse.lookup i = some w ∧ eventtime < w

/-- **A DUE TIMER IS CALLED** by the loop, or postponed by those called before it. -/
theorem due_foldl (pr : Reactor n K) (hsorted : timers.Pairwise (· < ·)) (hi : i ∈ timers)
    (hdue : pr.waketime i ≤ eventtime) :
    i ∈ (timers.foldl (visit eventtime callback) (pr, [])).2 ∨
      Postponed eventtime callback (timers.foldl (visit eventtime callback) (pr, [])).2 i := by
  obtain ⟨before, behind, rfl⟩ := append_of_mem hi
  obtain ⟨-, hbehind, hbefore⟩ := pairwise_append.mp hsorted
  obtain ⟨earlier, hearlier, heq⟩ := called_foldl eventtime callback (pr, []) before
  rw [nil_append] at heq
  have hlt : ∀ j ∈ earlier, j < i := fun j hj => hbefore j (hearlier.subset hj) i mem_cons_self
  have hwake : (before.foldl (visit eventtime callback) (pr, [])).1.waketime i = _ :=
    waketime_foldl eventtime callback before
      (fun h => lt_irrefl i (hbefore i h i mem_cons_self)) rfl
  rw [heq, waketime_updateAll] at hwake
  rw [foldl_append, foldl_cons]
  obtain ⟨later, hlater, hcalled⟩ := called_foldl eventtime callback
    (visit eventtime callback (before.foldl (visit eventtime callback) (pr, [])) i) behind
  rw [hcalled, visit]
  split
  · exact .inl (mem_append_left _ (mem_append_right _ (mem_singleton_self i)))
  · rename_i hnot
    refine .inr ?_
    have hfilter : (earlier ++ later).filter (· < i) = earlier := by
      rw [filter_append, filter_eq_self.mpr fun j hj => decide_eq_true (hlt j hj),
        filter_eq_nil_iff.mpr fun j hj => ?_, append_nil]
      have hgt := rel_of_pairwise_cons hbehind (hlater.subset hj)
      simpa using hgt.le
    rw [Postponed, heq, hfilter]
    rw [hwake] at hnot
    cases hlast : (made callback earlier).reverse.lookup i with
    | none =>
      rw [hlast] at hnot
      exact absurd hdue hnot
    | some w =>
      rw [hlast] at hnot
      exact ⟨w, rfl, not_le.mp hnot⟩

end Loop

/-! ## Whole runs -/

theorem covers_step [Field K] [FloorRing K] (h : pr.Covers fun _ => True) (op : Op n K) :
    (step never pr op).Covers fun _ => True := by
  cases op with
  | update pos waketime => exact (h.update pos waketime).mono fun _ => .inl
  | check eventtime busy callback =>
    rw [step, checkTimers]
    dsimp only
    split
    · have hnone : Alarms.Covers ⟨pr.waketime, never⟩ fun _ => False := nofun
      exact (covers_foldl eventtime callback hnone).mono fun j _ => .inr (mem_finRange j)
    · exact h

theorem covers_run [Field K] [FloorRing K] (never : K) (ops : List (Op n K)) :
    (run never ops).Covers fun _ => True :=
  List.foldlRecOn (motive := (Alarms.Covers · _)) ops _ (fun _ _ => le_rfl) fun _ h op _ =>
    covers_step h op

/-- **NO TIMER IS OVERSLEPT**: `next_timer` is at most every waketime, and the next run that
    reaches it calls each due timer once, unless the last update by a callback before it moves
    it behind the run. -/
theorem never_oversleeps [Field K] [FloorRing K] (never : K) (ops : List (Op n K)) :
    (∀ i, (run never ops).nextTimer ≤ (run never ops).waketime i) ∧
      ∀ eventtime busy callback i, (run never ops).nextTimer ≤ eventtime →
        (run never ops).waketime i ≤ eventtime →
        let called := (checkTimers never (run never ops) eventtime busy callback).2.1
        called.count i = 1 ∨ Postponed eventtime callback called i := by
  refine ⟨fun i => covers_run never ops i trivial, ?_⟩
  intro eventtime busy callback i hnext hdue
  rw [checkTimers, if_pos hnext, visits]
  rcases due_foldl eventtime callback ⟨_, never⟩ (pairwise_lt_finRange n)
    (mem_finRange i) hdue with hi | hpostponed
  · refine .inl (count_eq_one_of_mem ?_ hi)
    obtain ⟨called, hsub, heq⟩ := called_foldl eventtime callback
      (⟨(run never ops).waketime, never⟩, []) (List.finRange n)
    dsimp only
    rw [heq]
    exact hsub.nodup (nodup_finRange n)
  · exact .inr hpostponed

/-- The reactor inside of a run, when the callback of timer `i` has made so many of its updates. -/
def inCallback (never eventtime : K) (callback : Fin n → Callback n K) (pr : Reactor n K)
    (i : Fin n) (made : ℕ) : Reactor n K :=
  updateAll (visits never eventtime callback pr ((List.finRange n).take i)).1
    ((callback i).updates.take made)

/-- **AN UPDATE IN A CALLBACK**, of the first of two due timers, by which `next_timer`
    is above the waketime of the other. -/
theorem update_in_callback_uncovered :
    ∃ callback : Fin 2 → Callback 2 ℚ,
      let pr := run 9999999999999999 [.update 0 0, .update 1 0]
      pr.nextTimer ≤ 5 ∧ pr.waketime 0 ≤ 5 ∧
        (inCallback 9999999999999999 5 callback pr 0 1).waketime 1 <
          (inCallback 9999999999999999 5 callback pr 0 1).nextTimer :=
  ⟨fun _ => ⟨[(0, 100)], 100⟩, by decide +kernel⟩

end Pollreactor
