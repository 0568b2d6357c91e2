import Pick.SchedListProofs

/-! # Dispatching timers, and runs

`sched_timer_dispatch` calls the function of the first timer, which may delete
others, and then takes the timer out of the list or puts it where it belongs. -/

namespace Sched

open Chain List Timer

variable {s s' : State} {live : Finset Nat} {l : List TimerId} {base : UInt32}
  {fuel n : Nat}

/-! ## After a timer function -/

/-- The timer `t` has been called: it is in front of the timers `rest`, and only
    these are in order. -/
structure Called (s : State) (live : Finset Nat) (t : TimerId) (rest : List TimerId) : Prop where
  linked : Linked s.next (t :: rest ++ [.sentinel])
  nodup : (t :: rest).Nodup
  mem : ∀ x, x ∈ rest ↔ (x = .periodic ∨ ∃ n ∈ live, x = .user n) ∧ x ≠ t
  sorted : Sorted s.waketime rest
  sentinel : s.waketime .sentinel = s.waketime .periodic + 0x80000000
  last : s.lastInsert ∈ t :: rest ∧ s.lastInsert ≠ .deleted
  ne_sentinel : t ≠ .sentinel

variable {t : TimerId} {rest : List TimerId}

theorem Called.special_not_mem (h : Called s live t rest) : .deleted ∉ rest ∧ .sentinel ∉ rest :=
  ⟨fun hmem => (ne_special ((h.mem _).mp hmem).1).1 rfl,
    fun hmem => (ne_special ((h.mem _).mp hmem).1).2 rfl⟩

/-- A timer that is done leaves the list. -/
theorem updateList_done {live' : Finset Nat} (fuel : Nat)
    (h : Called s live t rest) (ht : t ≠ .periodic)
    (hlive : ∀ n, n ∈ live' ↔ n ∈ live ∧ t ≠ .user n) :
    ∃ s', updateList fuel t .done s = .ok (s'.waketime s'.timerList, s') ∧ Holds s' live' rest := by
  have hperiodic : .periodic ∈ rest := (h.mem _).mpr ⟨.inl rfl, ht.symm⟩
  obtain ⟨next, back, rfl⟩ := exists_cons_of_ne_nil (ne_nil_of_mem hperiodic)
  have hnext : s.next t = some next := h.linked.1
  have hne : next ≠ .deleted := by
    rintro rfl
    exact h.special_not_mem.1 mem_cons_self
  have hcore : Core { s with
      timerList := next
      lastInsert := if s.lastInsert = t then next else s.lastInsert } live'
      (next :: back) := by
    refine ⟨h.linked.2, (nodup_cons.mp h.nodup).2, ?_, h.sorted, ?_⟩
    · intro x
      rw [h.mem]
      constructor
      · rintro ⟨hp | ⟨m, hm, rfl⟩, hxt⟩
        · exact .inl hp
        · exact .inr ⟨m, (hlive m).mpr ⟨hm, hxt.symm⟩, rfl⟩
      · rintro (rfl | ⟨m, hm, rfl⟩)
        · exact ⟨.inl rfl, ht.symm⟩
        · obtain ⟨hm, hne⟩ := (hlive m).mp hm
          exact ⟨.inr ⟨m, hm, rfl⟩, hne.symm⟩
    · show (if s.lastInsert = t then next else s.lastInsert) ∈ next :: back
      split
      · exact mem_cons_self
      · rename_i hlast
        exact (mem_cons.mp h.last.1).resolve_left hlast
  refine ⟨_, ?_, hcore.holds rfl h.sentinel⟩
  rw [updateList, hnext]
  rfl

/-- The timers of the list, when `t` is one of them. -/
theorem Called.mem_cons (h : Called s live t rest)
    (ht : t = .periodic ∨ ∃ n ∈ live, t = .user n) (x : TimerId) :
    x ∈ t :: rest ↔ x = .periodic ∨ ∃ n ∈ live, x = .user n := by
  rw [List.mem_cons, h.mem]
  constructor
  · rintro (rfl | ⟨hx, -⟩)
    · exact ht
    · exact hx
  · intro hx
    by_cases hxt : x = t
    · exact .inl hxt
    · exact .inr ⟨hx, hxt⟩

variable {next : TimerId}

/-- A timer that stays before the others stays in front. -/
theorem updateList_stays (fuel : Nat) (h : Called s live t rest)
    (ht : t = .periodic ∨ ∃ n ∈ live, t = .user n) (hfirst : s.timerList = t)
    (hnext : s.next t = some next) (hbefore : timerIsBefore (s.waketime t) (s.waketime next) = true)
    (hin : InStretch base s.waketime (t :: rest)) :
    updateList fuel t .reschedule s = .ok (s.waketime s.timerList, s) ∧
      Holds s live (t :: rest) := by
  refine ⟨?_, Core.holds ⟨h.linked, h.nodup, h.mem_cons ht, ?_, h.last.1⟩
    (by rw [hfirst]; rfl) h.sentinel⟩
  · rw [updateList, hnext]
    dsimp only
    rw [if_neg nofun, if_neg (not_not.mpr hbefore), hfirst]
  · cases rest with
    | nil => exact pairwise_singleton _ _
    | cons y back =>
      have hy : next = y := Option.some.inj (hnext.symm.trans h.linked.1)
      subst hy
      obtain ⟨ht', hrest⟩ := forall_mem_cons.mp hin
      exact pairwise_cons.mpr ⟨not_before_of_first h.sorted hrest ht' hbefore, h.sorted⟩

/-- From where the timer is inserted: a timer of the list that is not later. -/
theorem insertTimer_start {back : List TimerId}
    (h : Called s live t (next :: back))
    (hnot : timerIsBefore (s.waketime t) (s.waketime next) = false)
    (hfuel : (next :: back).length + 1 < fuel) :
    ∃ front pos post fuel', next :: back = front ++ pos :: post ∧
      timerIsBefore (s.waketime t) (s.waketime pos) = false ∧ post.length + 1 < fuel' ∧
      insertTimer fuel (if timerIsBefore (s.waketime t)
          (s.waketime s.lastInsert) then next else s.lastInsert) t
          (s.waketime t) { s with timerList := next }
        = insertTimer fuel' pos t (s.waketime t) { s with timerList := next } := by
  rw [length_cons] at hfuel
  by_cases hown : s.lastInsert = t
  · -- the timer itself was inserted last: the search goes on to the next one
    obtain ⟨fuel, rfl⟩ : ∃ k, fuel = k + 1 := Nat.exists_eq_succ_of_ne_zero (by omega)
    refine ⟨[], next, back, fuel, rfl, hnot, by omega, ?_⟩
    rw [hown, timerIsBefore_self, if_neg nofun, insertTimer, insertTimer]
    have hlink : s.next t = some next := h.linked.1
    have hstep : find s.next (fun x => timerIsBefore (s.waketime t) (s.waketime x)) (fuel + 1) t
        = find s.next (fun x => timerIsBefore (s.waketime t) (s.waketime x)) fuel next := by
      rw [find, hlink]
      dsimp only
      rw [hnot, if_neg nofun]
    rw [hstep]
  · have hlast := (mem_cons.mp h.last.1).resolve_left hown
    by_cases hbefore : timerIsBefore (s.waketime t) (s.waketime s.lastInsert) = true
    · rw [if_pos hbefore]
      exact ⟨[], next, back, fuel, rfl, hnot, by omega, rfl⟩
    · rw [if_neg hbefore]
      obtain ⟨front, post, hsplit⟩ := append_of_mem hlast
      refine ⟨front, s.lastInsert, post, fuel, hsplit, Bool.eq_false_iff.mpr hbefore, ?_, rfl⟩
      have hlen := congrArg List.length hsplit
      rw [length_cons, length_append, length_cons] at hlen
      omega

/-- A timer that is no longer before the others moves back. -/
theorem updateList_moves (h : Called s live t rest)
    (ht : t = .periodic ∨ ∃ n ∈ live, t = .user n) (hnext : s.next t = some next)
    (hnot : timerIsBefore (s.waketime t) (s.waketime next) = false)
    (hin : InStretch base s.waketime (t :: rest)) (hfuel : rest.length + 1 < fuel) :
    ∃ s' l', updateList fuel t .reschedule s
        = .ok (s'.waketime s'.timerList, s') ∧ Holds s' live l' := by
  cases rest with
  | nil =>
    -- alone with the sentinel, the periodic timer is always before it
    have hperiodic : t = .periodic :=
      (mem_singleton.mp ((h.mem_cons ht .periodic).mpr (.inl rfl))).symm
    have hsent : next = .sentinel := Option.some.inj (hnext.symm.trans h.linked.1)
    rw [hsent, h.sentinel, hperiodic, timerIsBefore_add_half, timerIsBefore_self] at hnot
    cases hnot
  | cons y back =>
    have hy : next = y := Option.some.inj (hnext.symm.trans h.linked.1)
    subst hy
    obtain ⟨front, pos, post, fuel', hsplit, hpos, hlen, hstart⟩ := insertTimer_start h hnot hfuel
    have htrest := (nodup_cons.mp h.nodup).1
    have hrest : (next :: back).Nodup := (nodup_cons.mp h.nodup).2
    have hlinked : Linked s.next (next :: back ++ [.sentinel]) := h.linked.2
    have hsorted := h.sorted
    have hin' : InStretch base s.waketime (next :: back) := fun x hx => hin x (mem_cons_of_mem _ hx)
    have hmem := h.mem_cons ht
    have hsent : .sentinel ∉ t :: (next :: back) :=
      not_mem_cons_of_ne_of_not_mem h.ne_sentinel.symm h.special_not_mem.2
    have hfirst : (next :: back).head? = some next := rfl
    rw [hsplit] at htrest hrest hlinked hsorted hin' hmem hsent hfirst
    obtain ⟨next', l₁, l₂, hins, hl, hne, hlinked', hsorted'⟩ :=
      insertTimer_spec (s := { s with timerList := next }) (t := t) hlinked
        hsorted hin' (hin t mem_cons_self) (by rw [hpos]; exact nofun) h.sentinel
        ((hmem _).mpr (.inl rfl)) hrest hsent htrest hlen
    rw [hl] at hmem htrest hrest hfirst
    have hcore : Core { s with
        next := next', timerList := next, lastInsert := t } live
        (l₁ ++ t :: l₂) := by
      refine ⟨hlinked', ?_, ?_, hsorted', by simp⟩
      · exact nodup_middle.mpr (nodup_cons.mpr ⟨htrest, hrest⟩)
      · intro x
        rw [← hmem, mem_append, mem_cons, mem_cons, mem_append, or_left_comm]
    refine ⟨_, _, ?_, hcore.holds ?_ h.sentinel⟩
    · rw [updateList, hnext]
      dsimp only
      rw [if_neg nofun, if_pos (by rw [hnot]; exact nofun), hstart, hins]
      rfl
    · cases l₁ with
      | nil => exact absurd rfl hne
      | cons x l₁ => exact hfirst

/-- **BEHIND THE TIMER FUNCTION** the timer goes where it belongs, and the first wake time is
    returned. -/
theorem updateList_spec {res : Outcome} {live' : Finset Nat} (h : Called s live t rest)
    (ht : res = .reschedule → t = .periodic ∨ ∃ n ∈ live, t = .user n)
    (hdone : res = .done → t ≠ .periodic) (hfirst : s.timerList = t)
    (hlive : ∀ n, n ∈ live' ↔ n ∈ live ∧ ¬ (res = .done ∧ t = .user n))
    (hin : res = .reschedule → InStretch base s.waketime (t :: rest))
    (hfuel : rest.length + 1 < fuel) :
    ∃ s' l', updateList fuel t res s = .ok (s'.waketime s'.timerList, s') ∧ Holds s' live' l' := by
  cases res with
  | done =>
    have hleft : ∀ n, n ∈ live' ↔ n ∈ live ∧ t ≠ .user n := by
      intro n
      rw [hlive]
      exact and_congr_right fun _ => not_congr (and_iff_right rfl)
    obtain ⟨s', hupdate, hs'⟩ := updateList_done fuel h (hdone rfl) hleft
    exact ⟨s', rest, hupdate, hs'⟩
  | reschedule =>
    have hsame : live' = live := by
      ext n
      rw [hlive]
      exact and_iff_left fun hd => nomatch hd.1
    rw [hsame]
    obtain ⟨next, hnext⟩ : ∃ next, s.next t = some next := by
      cases rest with
      | nil | cons y back => exact ⟨_, h.linked.1⟩
    cases hbefore : timerIsBefore (s.waketime t) (s.waketime next) with
    | true =>
      obtain ⟨hupdate, hs⟩ := updateList_stays fuel h (ht rfl) hfirst hnext hbefore (hin rfl)
      exact ⟨s, _, hupdate, hs⟩
    | false => exact updateList_moves h (ht rfl) hnext hbefore (hin rfl) hfuel

/-! ## Timer functions -/

variable {period : UInt32} {cb : Callback}

/-- A timer function that deletes others leaves its own timer in front. -/
theorem schedDelTimers_spec {dels : List Nat} (h : Holds s live l)
    (hfirst : ∀ n ∈ dels, s.timerList ≠ .user n) (hfuel : l.length < fuel) :
    ∃ s' l', schedDelTimers fuel dels s = .ok s' ∧
      Holds s' (live \ dels.toFinset) l' ∧ l'.length ≤ l.length ∧
      s'.timerList = s.timerList ∧ s'.waketime = s.waketime := by
  induction dels generalizing s live l with
  | nil =>
    refine ⟨s, l, rfl, ?_, le_refl _, rfl, rfl⟩
    rw [toFinset_nil, Finset.sdiff_empty]
    exact h
  | cons n dels ih =>
    obtain ⟨s₁, l₁, hdel, h₁, hlen₁, hfirst₁, hwake₁⟩ :=
      schedDelTimer_other h (hfirst n mem_cons_self) hfuel
    obtain ⟨s', l', hdels, h', hlen', hfirst', hwake'⟩ := ih h₁
      (fun m hm => by
        rw [hfirst₁]
        exact hfirst m (mem_cons_of_mem _ hm)) (by omega)
    refine ⟨s', l', ?_, ?_, hlen'.trans hlen₁, hfirst'.trans hfirst₁, hwake'.trans hwake₁⟩
    · rw [schedDelTimers, foldlM_cons, hdel]
      exact hdels
    · have hset : live \ (n :: dels).toFinset = live.erase n \ dels.toFinset := by
        rw [toFinset_cons, Finset.sdiff_insert, Finset.erase_sdiff_comm]
      rw [hset]
      exact h'

/-- Before its function is called, the first timer is in order too. -/
theorem Holds.called (h : Holds s live (t :: rest)) : Called s live t rest := by
  have hfirst : t = s.timerList := Option.some.inj h.first
  obtain ⟨hnot, hrest⟩ := nodup_cons.mp h.nodup
  refine ⟨h.linked, h.nodup, ?_, (pairwise_cons.mp h.sorted).2, h.sentinel, h.last, ?_⟩
  · intro x
    constructor
    · intro hx
      have hxt : x ≠ t := ne_of_mem_of_not_mem hx hnot
      refine ⟨?_, hxt⟩
      rcases (h.mem x).mp (mem_cons_of_mem _ hx) with hp | hu | ⟨hd, hf⟩
      · exact .inl hp
      · exact .inr hu
      · exact absurd (hd.trans (hfirst.trans hf).symm) hxt
    · rintro ⟨hx, hxt⟩
      have hlisted : Listed live s x := hx.imp_right .inl
      exact (mem_cons.mp ((h.mem x).mpr hlisted)).resolve_left hxt
  · rintro rfl
    exact h.sentinel_not_mem mem_cons_self

/-- A timer function sets the wake time of its own timer. -/
theorem Called.setWaketime {wt : TimerId → UInt32} (h : Called s live t rest)
    (hkeep : ∀ x ∈ rest, wt x = s.waketime x)
    (hsentinel : wt .sentinel = wt .periodic + 0x80000000) :
    Called { s with waketime := wt } live t rest :=
  ⟨h.linked, h.nodup, h.mem, h.sorted.congr hkeep, hsentinel, h.last, h.ne_sentinel⟩

/-- The live timers once the first timer has been dispatched. -/
def liveAfter (cb : Callback) (s : State) (live : Finset Nat) : Finset Nat :=
  match s.timerList with
  | .user n =>
    if cb.result = .done then (live \ cb.deletes.toFinset).erase n
    else live \ cb.deletes.toFinset
  | _ => live

/-- The wake times then. -/
def wakeAfter (period : UInt32) (cb : Callback) (s : State) : TimerId → UInt32 :=
  match s.timerList with
  | .periodic => Function.update s.waketime .periodic
      (s.waketime .periodic + period)
  | .user n => Function.update s.waketime (.user n) cb.waketime
  | _ => s.waketime

/-- The sentinel follows the periodic timer. -/
theorem periodicEvent_sentinel (period : UInt32) (s : State) :
    (periodicEvent period s).waketime .sentinel
      = (periodicEvent period s).waketime .periodic + 0x80000000 := by
  simp [periodicEvent, State.setWaketime]

/-- What the timer function does, and what is left to be done. -/
theorem callTimer_spec (period : UInt32) (h : Holds s live l)
    (hown : ∀ n, s.timerList = .user n → n ∉ cb.deletes) (hfuel : l.length < fuel) :
    ∃ res s₁ live₁ rest, callTimer fuel period cb s = .ok (res, s₁) ∧
      Called s₁ live₁ s.timerList rest ∧ s₁.timerList = s.timerList ∧ rest.length < l.length ∧
      (res = .reschedule → s.timerList = .periodic ∨ ∃ n ∈ live₁, s.timerList = .user n) ∧
      (res = .done → s.timerList ≠ .periodic) ∧
      (∀ n, n ∈ liveAfter cb s live ↔ n ∈ live₁ ∧ ¬ (res = .done ∧ s.timerList = .user n)) ∧
      ∀ x, x ≠ .sentinel → s₁.waketime x = wakeAfter period cb s x := by
  obtain ⟨rest, rfl⟩ := h.exists_cons
  cases hfirst : s.timerList with
  | periodic =>
    rw [hfirst] at h
    have hcalled := h.called
    have hnot : TimerId.periodic ∉ rest := (nodup_cons.mp h.nodup).1
    refine ⟨.reschedule, periodicEvent period s, live, rest, ?_,
      hcalled.setWaketime ?_ ?_, hfirst, Nat.lt_succ_self _,
      fun _ => .inl rfl, nofun, ?_, ?_⟩
    · rw [callTimer, hfirst]
    · intro x hx
      exact (update_of_not_mem hcalled.special_not_mem.2 x hx).trans (update_of_not_mem hnot x hx)
    · exact periodicEvent_sentinel period s
    · intro n
      rw [liveAfter, hfirst]
      exact (and_iff_left fun hd => nomatch hd.1).symm
    · intro x hx
      rw [wakeAfter, hfirst]
      exact Function.update_of_ne hx _ _
  | sentinel =>
    rw [hfirst] at h
    exact absurd mem_cons_self h.sentinel_not_mem
  | deleted =>
    rw [hfirst] at h
    refine ⟨.done, s, live, rest, ?_, h.called, hfirst, Nat.lt_succ_self _,
      nofun, fun _ => nofun, ?_, ?_⟩
    · rw [callTimer, hfirst]
    · intro n
      rw [liveAfter, hfirst]
      exact (and_iff_left fun hd => nomatch hd.2).symm
    · intro x _
      rw [wakeAfter, hfirst]
  | user n =>
    have hothers : ∀ m ∈ cb.deletes, s.timerList ≠ .user m := by
      intro m hm heq
      exact hown m heq hm
    obtain ⟨s₁, l₁, hdels, h₁, hlen, hfirst₁, hwake₁⟩ := schedDelTimers_spec h hothers hfuel
    obtain ⟨rest₁, rfl⟩ := h₁.exists_cons
    rw [hfirst₁, hfirst] at h₁
    have hnot : TimerId.user n ∉ rest₁ := (nodup_cons.mp h₁.nodup).1
    have hlive : n ∈ live \ cb.deletes.toFinset := h₁.user_mem.mp mem_cons_self
    refine ⟨cb.result, s₁.setWaketime (.user n) cb.waketime, _, rest₁, ?_,
      h₁.called.setWaketime ?_ ?_, hfirst₁.trans hfirst, ?_,
      fun _ => .inr ⟨n, hlive, rfl⟩, fun _ => nofun, ?_, ?_⟩
    · rw [callTimer, hfirst]
      dsimp only
      rw [hdels]
      rfl
    · exact update_of_not_mem hnot
    · exact h₁.sentinel
    · simp only [length_cons] at hlen ⊢
      omega
    · intro m
      rw [liveAfter, hfirst]
      dsimp only
      split
      · rename_i hdone
        rw [Finset.mem_erase, and_comm]
        refine and_congr_right fun _ => ?_
        rw [hdone]
        exact ⟨fun hne heq => hne (TimerId.user.inj heq.2).symm,
          fun hne heq => hne ⟨rfl, congrArg TimerId.user heq.symm⟩⟩
      · rename_i hres
        exact (and_iff_left fun hd => hres hd.1).symm
    · intro x _
      rw [wakeAfter, hfirst, ← hwake₁]
      rfl

/-- **DISPATCHING** the first timer keeps the list, and gives the wake time of
    the new first timer. -/
theorem schedTimerDispatch_spec (h : Holds s live l)
    (hown : ∀ n, s.timerList = .user n → n ∉ cb.deletes)
    (hin : ∀ x, (x = .periodic ∨ ∃ n ∈ liveAfter cb s live, x = .user n) →
      offset base (wakeAfter period cb s x) < 2 ^ 31)
    (hfuel : l.length < fuel) :
    ∃ s' l', schedTimerDispatch fuel period cb s
        = .ok (s'.waketime s'.timerList, s') ∧
      Holds s' (liveAfter cb s live) l' := by
  obtain ⟨res, s₁, live₁, rest, hcall, hcalled, hfirst, hlen, ht, hdone, hlive,
    hwake⟩ := callTimer_spec period h hown hfuel
  have hstretch : res = .reschedule → InStretch base s₁.waketime (s.timerList :: rest) := by
    intro hres x hx
    have hx' := (hcalled.mem_cons (ht hres) x).mp hx
    rw [hwake x (ne_special hx').2]
    refine hin x (hx'.imp_right ?_)
    rintro ⟨n, hn, hu⟩
    refine ⟨n, (hlive n).mpr ⟨hn, fun hd => ?_⟩, hu⟩
    exact nomatch hres.symm.trans hd.1
  have hlen' : rest.length + 1 < fuel := by omega
  obtain ⟨s', l', hupdate, hs'⟩ := updateList_spec hcalled ht hdone hfirst hlive hstretch hlen'
  refine ⟨s', l', ?_, hs'⟩
  rw [schedTimerDispatch, hcall]
  exact hupdate

/-- `sched_timer_reset` leaves no timer live. -/
theorem schedTimerReset_spec (h : Holds s live l) :
    Holds (schedTimerReset s) ∅ [.deleted, .periodic] := by
  have hend : s.next .sentinel = none := h.linked.right.1
  have hcore : Core (schedTimerReset s) ∅ [.periodic] := by
    refine ⟨⟨rfl, hend, trivial⟩, nodup_singleton _, ?_,
      pairwise_singleton _ _, mem_singleton.mpr rfl⟩
    intro x
    rw [mem_singleton]
    refine ⟨.inl, ?_⟩
    rintro (hp | ⟨n, hn, -⟩)
    · exact hp
    · exact absurd hn (Finset.notMem_empty n)
  refine hcore.holds_deleted rfl rfl (forall_mem_singleton.mpr ?_) h.sentinel
  show ¬ timerIsBefore (s.waketime .periodic) (s.waketime .periodic) = true
  rw [timerIsBefore_self]
  exact nofun

/-! ## Runs -/

/-- What other code does with timers. -/
inductive Op where
  | add (n : Nat) (waketime now : UInt32) (isShutdown : Bool)
  | del (n : Nat)
  | dispatch (cb : Callback)
  | reset

/-- The timers, and those of other code that have been added and neither deleted nor finished. -/
structure Sys where
  s : State
  live : Finset Nat

/-- One operation.  A shutdown in `sched_add_timer` leaves the list, and `run_shutdown` resets
    the timers. -/
def Sys.step (fuel : Nat) (period : UInt32) (sys : Sys) :
    Op → Except Failure Sys
  | .add n waketime now isShutdown =>
    match schedAddTimer fuel (.user n) waketime now isShutdown sys.s with
    | .ok s => .ok ⟨s, insert n sys.live⟩
    | .error .timerTooClose => .ok ⟨schedTimerReset (sys.s.setWaketime (.user n) waketime), ∅⟩
    | .error e => .error e
  | .del n => (schedDelTimer fuel (.user n) sys.s).map fun s => ⟨s, sys.live.erase n⟩
  | .dispatch cb =>
    (schedTimerDispatch fuel period cb sys.s).map fun r => ⟨r.2, liveAfter cb sys.s sys.live⟩
  | .reset => .ok ⟨schedTimerReset sys.s, ∅⟩

/-- A run of operations. -/
def Sys.run (fuel : Nat) (period : UInt32) (sys : Sys) (ops : List Op) : Except Failure Sys :=
  ops.foldlM (fun sys op => sys.step fuel period op) sys

/-- What callers see to: only a timer that is not in the list is added, none deletes itself in
    its function, and the wake times are less than `2 ^ 31` ticks apart. -/
def Op.Fits (period : UInt32) (sys : Sys) : Op → Prop
  | .add n waketime _ _ => n ∉ sys.live ∧ ∃ base, offset base waketime < 2 ^ 31 ∧
      ∀ x, Listed sys.live sys.s x → offset base (sys.s.waketime x) < 2 ^ 31
  | .del _ => True
  | .dispatch cb => (∀ n, sys.s.timerList = .user n → n ∉ cb.deletes) ∧
      ∃ base, ∀ x, (x = .periodic ∨ ∃ n ∈ liveAfter cb sys.s sys.live, x = .user n) →
        offset base (wakeAfter period cb sys.s x) < 2 ^ 31
  | .reset => True

/-- All operations of a run fit. -/
def Sys.AllFit (fuel : Nat) (period : UInt32) : Sys → List Op → Prop
  | _, [] => True
  | sys, op :: ops => op.Fits period sys ∧
      ∀ sys', sys.step fuel period op = .ok sys' → sys'.AllFit fuel period ops

/-- The list is no longer than there are timers. -/
theorem Holds.length_le (h : Holds s live l) : l.length ≤ live.card + 2 := by
  have hsub : l.toFinset ⊆ insert .periodic (insert .deleted (live.image TimerId.user)) := by
    intro x hx
    rw [mem_toFinset, h.mem] at hx
    rw [Finset.mem_insert, Finset.mem_insert, Finset.mem_image]
    rcases hx with hp | ⟨n, hn, hu⟩ | ⟨hd, -⟩
    · exact .inl hp
    · exact .inr (.inr ⟨n, hn, hu.symm⟩)
    · exact .inr (.inl hd)
  calc l.length = l.toFinset.card := (toFinset_card_of_nodup h.nodup).symm
    _ ≤ _ := Finset.card_le_card hsub
    _ ≤ (live.image TimerId.user).card + 2 :=
        (Finset.card_insert_le _ _).trans (Nat.succ_le_succ (Finset.card_insert_le _ _))
    _ ≤ live.card + 2 := Nat.add_le_add_right Finset.card_image_le 2

theorem liveAfter_card_le (cb : Callback) (s : State) (live : Finset Nat) :
    (liveAfter cb s live).card ≤ live.card := by
  rw [liveAfter]
  split
  · split
    · exact (Finset.card_le_card (Finset.erase_subset _ _)).trans
        (Finset.card_le_card Finset.sdiff_subset)
    · exact Finset.card_le_card Finset.sdiff_subset
  · exact le_refl _

/-- A timer that is not in the list may have any wake time. -/
theorem Holds.setWaketime (h : Holds s live l) (hn : n ∉ live) (w : UInt32) :
    Holds (s.setWaketime (.user n) w) live l := by
  have hnot : .user n ∉ l := fun hmem => hn (h.user_mem.mp hmem)
  exact { h with sorted := h.sorted.congr (update_of_not_mem hnot) }

variable {sys : Sys} {op : Op} {ops : List Op}

/-- **ONE OPERATION** that fits keeps the list, and adds one timer at most. -/
theorem Sys.step_spec (h : Holds sys.s sys.live l) (hfit : op.Fits period sys)
    (hfuel : sys.live.card + 2 < fuel) :
    ∃ sys' l', sys.step fuel period op = .ok sys' ∧
      Holds sys'.s sys'.live l' ∧ sys'.live.card ≤ sys.live.card + 1 := by
  have hlen : l.length < fuel := h.length_le.trans_lt hfuel
  cases op with
  | add n w now isShutdown =>
    obtain ⟨hn, base, hw, hl⟩ := hfit
    have hin : InStretch base sys.s.waketime l := fun x hx => hl x ((h.mem x).mp hx)
    rw [Sys.step]
    rcases schedAddTimer_spec now isShutdown h hn hw hin hlen with hadd | ⟨s', l', hadd, hs'⟩
    · rw [hadd]
      exact ⟨_, _, rfl, schedTimerReset_spec (h.setWaketime hn w), Nat.zero_le _⟩
    · rw [hadd]
      exact ⟨_, l', rfl, hs', Finset.card_insert_le _ _⟩
  | del n =>
    have hcard : (sys.live.erase n).card ≤ sys.live.card + 1 :=
      (Finset.card_le_card (Finset.erase_subset _ _)).trans (Nat.le_succ _)
    rw [Sys.step]
    by_cases hfirst : sys.s.timerList = .user n
    · obtain ⟨s', l', hdel, hs', -⟩ := schedDelTimer_first fuel h hfirst
      rw [hdel]
      exact ⟨_, l', rfl, hs', hcard⟩
    · obtain ⟨s', l', hdel, hs', -⟩ := schedDelTimer_other h hfirst hlen
      rw [hdel]
      exact ⟨_, l', rfl, hs', hcard⟩
  | dispatch cb =>
    obtain ⟨hown, base, hin⟩ := hfit
    obtain ⟨s', l', hdis, hs'⟩ := schedTimerDispatch_spec h hown hin hlen
    rw [Sys.step, hdis]
    exact ⟨_, l', rfl, hs', (liveAfter_card_le cb _ _).trans (Nat.le_succ _)⟩
  | reset => exact ⟨_, _, rfl, schedTimerReset_spec h, Nat.zero_le _⟩

/-- **EVERY RUN** of operations that fit keeps the list. -/
theorem Sys.run_spec (h : Holds sys.s sys.live l) (hfit : sys.AllFit fuel period ops)
    (hfuel : sys.live.card + ops.length + 2 < fuel) :
    ∃ sys' l', sys.run fuel period ops = .ok sys' ∧ Holds sys'.s sys'.live l' ∧
      sys'.live.card ≤ sys.live.card + ops.length := by
  induction ops generalizing sys l with
  | nil => exact ⟨sys, l, rfl, h, le_refl _⟩
  | cons op ops ih =>
    rw [length_cons] at hfuel
    have hnow : sys.live.card + 2 < fuel := by omega
    obtain ⟨sys₁, l₁, hstep, h₁, hcard₁⟩ := Sys.step_spec h hfit.1 hnow
    obtain ⟨sys', l', hrun, h', hcard'⟩ := ih h₁ (hfit.2 sys₁ hstep) (by omega)
    refine ⟨sys', l', ?_, h', ?_⟩
    · rw [Sys.run, foldlM_cons, hstep]
      exact hrun
    · rw [length_cons]
      omega

/-- Before the first operation. -/
def Sys.start : Sys := ⟨initial, ∅⟩

/-- **THE TIMER LIST IS CORRECT**: after every run that keeps the wake times together, it holds
    exactly the timers due to be called, in order, and dispatching the first gives the wake time
    of the next. -/
theorem timerList_correct (hfit : Sys.start.AllFit fuel period ops)
    (hfuel : ops.length + 2 < fuel) :
    ∃ sys l, Sys.start.run fuel period ops = .ok sys ∧ Holds sys.s sys.live l ∧
      ∀ cb, (Op.dispatch cb).Fits period sys →
        ∃ s' l', schedTimerDispatch fuel period cb sys.s
            = .ok (s'.waketime s'.timerList, s') ∧
          Holds s' (liveAfter cb sys.s sys.live) l' := by
  have hzero : Sys.start.live.card = 0 := Finset.card_empty
  obtain ⟨sys, l, hrun, h, hcard⟩ := Sys.run_spec (l := [.periodic]) holds_initial hfit (by omega)
  refine ⟨sys, l, hrun, h, ?_⟩
  rintro cb ⟨hown, base, hin⟩
  have hlen : l.length < fuel := h.length_le.trans_lt (by omega)
  exact schedTimerDispatch_spec h hown hin hlen

/-- The periodic timer is called and goes behind the first timer, a second is added, and
    the first is deleted, so that the deleted timer stands in its place. -/
theorem timerList_correct_deleted : ∃ sys l,
    Sys.start.run 7 100 [.add 0 5 0 false, .dispatch ⟨[], 0, .done⟩, .add 1 7 0 false, .del 0]
        = .ok sys ∧
      sys.s.timerList = .deleted ∧ Holds sys.s sys.live l ∧
      ∀ cb, (Op.dispatch cb).Fits 100 sys →
        ∃ s' l', schedTimerDispatch 7 100 cb sys.s = .ok (s'.waketime s'.timerList, s') ∧
          Holds s' (liveAfter cb sys.s sys.live) l' := by
  have hfit : Sys.start.AllFit 7 100
      [.add 0 5 0 false, .dispatch ⟨[], 0, .done⟩, .add 1 7 0 false, .del 0] := by
    refine ⟨⟨Finset.notMem_empty 0, 0, by decide, ?_⟩, fun sys hadd => ?_⟩
    · rintro x (rfl | ⟨n, hn, -⟩ | ⟨-, hd⟩)
      · decide
      · exact absurd hn (Finset.notMem_empty n)
      · cases hd
    cases hadd
    refine ⟨⟨nofun, 0, ?_⟩, fun sys hcall => ?_⟩
    · rintro x (rfl | ⟨n, hn, rfl⟩)
      · decide +kernel
      · obtain rfl : n = 0 := Finset.mem_singleton.mp hn
        decide +kernel
    cases hcall
    refine ⟨⟨by decide +kernel, 0, by decide, ?_⟩, fun _ _ => ⟨trivial, fun _ _ => trivial⟩⟩
    rintro x (rfl | ⟨n, hn, rfl⟩ | ⟨-, hd⟩)
    · decide +kernel
    · obtain rfl : n = 0 := Finset.mem_singleton.mp hn
      decide +kernel
    · cases hd
  obtain ⟨sys, l, hrun, h, hdispatch⟩ := timerList_correct hfit (by decide)
  refine ⟨sys, l, hrun, ?_, h, hdispatch⟩
  cases hrun
  decide +kernel

end Sched
