import Pick.LookaheadFlushProofs

/-! # Runs of the look-ahead queue

`add_move` keeps the queue chained, so what is proved of plans holds of
every flush.  Across flushes the speed at which the queue is entered is
decided already: it is zero after a full flush, and that of a peak with
another one behind it after a lazy flush. -/

namespace Lookahead

open List

variable {K : Type} [Field K] [LinearOrder K]

/-! ## Junction limits -/

omit [Field K] in
theorem foldl_min_le (vs : List K) (v : K) : vs.foldl min v ≤ v :=
  List.foldlRecOn (motive := (· ≤ v)) vs min le_rfl fun _ hu _ _ => (min_le_left _ _).trans hu

omit [Field K] in
theorem le_foldl_min {b : K} {vs : List K} (hvs : ∀ a ∈ vs, b ≤ a) {v : K}
    (hv : b ≤ v) : b ≤ vs.foldl min v :=
  List.foldlRecOn (motive := (b ≤ ·)) vs min hv fun _ hu a ha => le_min hu (hvs a ha)

variable {root : SquareRoot K} {prev m : Move K} {ms : List (Move K)} {v : K}

theorem centripetalV2_le : centripetalV2 root prev m v ≤ v := by
  rw [centripetalV2]
  split
  · exact (min_le_left _ _).trans ((min_le_left _ _).trans
      ((min_le_left _ _).trans (min_le_left _ _)))
  · exact le_refl v

variable [IsStrictOrderedRing K]

theorem centripetalV2_nonneg (hv : 0 ≤ v) : 0 ≤ centripetalV2 root prev m v := by
  have hsin := root.nonneg
    (max (1 / 2 * (1 - -(m.data.axesR.1 * prev.data.axesR.1 + m.data.axesR.2.1 * prev.data.axesR.2.1
      + m.data.axesR.2.2 * prev.data.axesR.2.2))) 0)
  have hδ := m.data.deltaV2_pos.le
  have hδ' := prev.data.deltaV2_pos.le
  have hjd := m.data.junctionDeviation_nonneg
  have hjd' := prev.data.junctionDeviation_nonneg
  have ha := m.data.accel_pos
  have ha' := prev.data.accel_pos
  rw [centripetalV2]
  split
  · rename_i hpos
    obtain ⟨hone, hcos⟩ := hpos
    refine le_min (le_min (le_min (le_min hv ?_) ?_) ?_) ?_ <;> positivity
  · exact hv

theorem limits_init (data : MoveData K) : Limits (Move.init data) :=
  ⟨le_refl 0, le_refl 0, data.maxCruiseV2_pos.le, by
    show (0 : K) ≤ 9999999999 / 10
    positivity⟩

/-- A move that must start from rest may follow any move. -/
theorem linked_init (hp : Limits prev) (data : MoveData K) : Linked prev (Move.init data) := by
  have hstart := hp.smoothed_nonneg.trans hp.smoothed_le
  exact ⟨prev.data.maxCruiseV2_pos.le, add_nonneg hstart prev.data.deltaV2_pos.le,
    add_nonneg hp.smoothed_nonneg prev.data.smoothDeltaV2_pos.le, .inl rfl⟩

/-- **`calc_junction` LINKS** a new move to the last one. -/
theorem calcJunction_linked (root : SquareRoot K) (hp : Limits prev)
    (data : MoveData K) {eaV2 : List K} (hea : ∀ a ∈ eaV2, 0 ≤ a) :
    Limits (Move.calcJunction root eaV2 prev (Move.init data)) ∧
      Linked prev (Move.calcJunction root eaV2 prev (Move.init data)) := by
  rw [Move.calcJunction]
  split
  · exact ⟨limits_init data, linked_init hp data⟩
  · obtain ⟨v, hv⟩ : ∃ v, v = eaV2.foldl min
        (min (min (min (Move.init data).data.maxCruiseV2 prev.data.maxCruiseV2)
          prev.nextJunctionV2) (prev.maxStartV2 + prev.data.deltaV2)) :=
      ⟨_, rfl⟩
    rw [← hv]
    have hstart := hp.smoothed_nonneg.trans hp.smoothed_le
    have hnonneg : 0 ≤ v := by
      rw [hv]
      refine le_foldl_min hea (le_min (le_min (le_min ?_ ?_) ?_) ?_)
      · exact data.maxCruiseV2_pos.le
      · exact prev.data.maxCruiseV2_pos.le
      · exact hp.next_nonneg
      · exact add_nonneg hstart prev.data.deltaV2_pos.le
    have hle : centripetalV2 root prev (Move.init data) v ≤
        min (min (min data.maxCruiseV2 prev.data.maxCruiseV2)
          prev.nextJunctionV2) (prev.maxStartV2 + prev.data.deltaV2) :=
      centripetalV2_le.trans (hv ▸ foldl_min_le _ _)
    obtain ⟨hle, hreach⟩ := le_min_iff.mp hle
    obtain ⟨hle, -⟩ := le_min_iff.mp hle
    obtain ⟨hcruise, hcruise'⟩ := le_min_iff.mp hle
    refine ⟨⟨?_, min_le_left _ _, hcruise, (limits_init data).next_nonneg⟩,
      ⟨hcruise', hreach, min_le_right _ _, min_choice _ _⟩⟩
    exact le_min (centripetalV2_nonneg hnonneg)
      (add_nonneg hp.smoothed_nonneg prev.data.smoothDeltaV2_pos.le)

/-! ## What a flush reads of a move -/

/-- A move without its limit for the next junction, which no flush reads. -/
def Move.speeds (m : Move K) : Move K := { m with nextJunctionV2 := 0 }

section Speeds

variable (ms)

omit [IsStrictOrderedRing K]

theorem startV2_speeds : startV2 (ms.map Move.speeds) = startV2 ms := by
  induction ms with
  | nil => rfl
  | cons m ms ih =>
    show min m.maxStartV2 (startV2 (ms.map Move.speeds) + _) = _
    rw [ih]
    rfl

theorem smoothedV2_speeds : smoothedV2 (ms.map Move.speeds) = smoothedV2 ms := by
  induction ms with
  | nil => rfl
  | cons m ms ih =>
    show min m.maxSmoothedV2 (smoothedV2 (ms.map Move.speeds) + _) = _
    rw [ih]
    rfl

theorem waits_speeds : Waits (ms.map Move.speeds) ↔ Waits ms := by
  cases ms with
  | nil => exact Iff.rfl
  | cons m ms =>
    show smoothedV2 (ms.map Move.speeds) + _ ≤ _ ↔ _
    rw [smoothedV2_speeds]
    exact Iff.rfl

theorem peaks_speeds : Peaks (ms.map Move.speeds) ↔ Peaks ms := by
  cases ms with
  | nil => exact Iff.rfl
  | cons m ms =>
    show ¬ Waits ((m :: ms).map Move.speeds) ∧
      (smoothedV2 (ms.map Move.speeds) < smoothedV2 ((m :: ms).map Move.speeds) + _ ∨
        Waits (ms.map Move.speeds)) ↔ _
    rw [waits_speeds, waits_speeds, smoothedV2_speeds, smoothedV2_speeds]
    exact Iff.rfl

theorem peakV2_speeds : peakV2 (ms.map Move.speeds) = peakV2 ms := by
  induction ms with
  | nil => rfl
  | cons m ms ih =>
    by_cases hp : Peaks (m :: ms)
    · have hp' := (peaks_speeds (m :: ms)).mpr hp
      rw [map_cons] at hp' ⊢
      rw [peakV2, if_pos hp', peakV2, if_pos hp, ← map_cons, smoothedV2_speeds, smoothedV2_speeds]
      rfl
    · have hp' := mt (peaks_speeds (m :: ms)).mp hp
      rw [map_cons] at hp' ⊢
      rw [peakV2, if_neg hp', peakV2, if_neg hp, ih]

/-- The limits for the next junction do not change the speed at which a queue is entered. -/
theorem entryV2_speeds (mcV2 : K) : entryV2 mcV2 (ms.map Move.speeds) = entryV2 mcV2 ms := by
  rw [entryV2, entryV2, startV2_speeds, peakV2_speeds]
  exact congrArg (min _) (if_congr (waits_speeds ms) rfl rfl)

theorem isChain_speeds : (ms.map Move.speeds).IsChain Linked ↔ ms.IsChain Linked := by
  rw [isChain_map]
  constructor
  · intro h
    exact h.imp fun _ _ hl => { hl with }
  · intro h
    exact h.imp fun _ _ hl => { hl with }

variable {ms} in
theorem Chained.speeds (h : Chained ms) : Chained (ms.map Move.speeds) := by
  refine ⟨?_, (isChain_speeds ms).mpr h.linked⟩
  refine forall_mem_map.mpr fun m hm => ?_
  exact { h.limits m hm with next_nonneg := le_refl 0 }

end Speeds

/-! ## The speed at which the queue is entered -/

/-- Whatever is added, the queue is entered at the speed `v`. -/
def Decided (v : K) (queue : List (Move K)) : Prop :=
  (queue = [] → v = 0) ∧
    (queue ≠ [] → ∀ later, Chained later →
      queue.map Move.speeds <+: later.map Move.speeds → ¬ Waits later ∧ entryV2 0 later = v)

section

omit [IsStrictOrderedRing K]

theorem decided_nil : Decided (0 : K) [] := ⟨fun _ => rfl, fun h => absurd rfl h⟩

theorem Decided.entry (h : Decided v ms) (hms : Chained ms) : ¬ Waits ms ∧ entryV2 0 ms = v := by
  by_cases hne : ms = []
  · subst hne
    rw [h.1 rfl]
    exact ⟨fun hw => hw, min_self 0⟩
  · exact h.2 hne ms hms (prefix_refl _)

theorem Decided.extend {later : List (Move K)} (h : Decided v ms)
    (hne : ms ≠ []) (hp : ms.map Move.speeds <+: later.map Move.speeds) : Decided v later := by
  refine ⟨?_, fun _ last hlast hlater => h.2 hne last hlast (hp.trans hlater)⟩
  rintro rfl
  rw [map_nil, prefix_nil, map_eq_nil_iff] at hp
  exact absurd hp hne

end

/-- A move that must start from rest decides the speed. -/
theorem decided_of_rest (hstart : m.maxStartV2 = 0)
    (hsmoothed : m.maxSmoothedV2 = 0) : Decided 0 (m :: ms) := by
  refine ⟨fun h => absurd h (cons_ne_nil _ _), ?_⟩
  rintro - later hlater hp
  cases later with
  | nil => exact absurd (prefix_nil.mp hp) (cons_ne_nil _ _)
  | cons r later =>
    have heq : m.speeds = r.speeds := (cons_prefix_cons.mp hp).1
    have hr : r.maxStartV2 = 0 := (congrArg Move.maxStartV2 heq).symm.trans hstart
    have hr' : r.maxSmoothedV2 = 0 := (congrArg Move.maxSmoothedV2 heq).symm.trans hsmoothed
    have hw : ¬ Waits (r :: later) := by
      show ¬ smoothedV2 later + r.data.smoothDeltaV2 ≤ r.maxSmoothedV2
      rw [hr', not_le]
      exact add_pos_of_nonneg_of_pos (smoothedV2_nonneg hlater.tail) r.data.smoothDeltaV2_pos
    have hzero : startV2 (r :: later) = 0 :=
      le_antisymm ((startV2_le r later).trans hr.le) (startV2_nonneg hlater)
    refine ⟨hw, ?_⟩
    rw [entryV2, if_neg hw, hzero]
    exact min_eq_left (le_peakV2 hlater (cons_ne_nil _ _) hw).2.le

/-- A peak with another one behind it decides the speed. -/
theorem decided_of_peaks (hp : Peaks (m :: ms)) (hpeak : peakV2 ms ≠ 0) :
    Decided (entryV2 0 (m :: ms)) (m :: ms) := by
  refine ⟨fun h => absurd h (cons_ne_nil _ _), ?_⟩
  rintro - later hlater ⟨as, has⟩
  have hchained : Chained (m.speeds :: ms.map Move.speeds ++ as) := by
    rw [← map_cons, has]
    exact hlater.speeds
  have hp' : Peaks (m.speeds :: ms.map Move.speeds) := (peaks_speeds (m :: ms)).mpr hp
  have hpeak' : peakV2 (ms.map Move.speeds) ≠ 0 := by
    rw [peakV2_speeds]
    exact hpeak
  obtain ⟨hw, hentry⟩ := entryV2_append hchained hp' hpeak' 0 0
  rw [← map_cons, has, waits_speeds] at hw
  rw [← map_cons, has, entryV2_speeds, entryV2_speeds] at hentry
  exact ⟨hw, hentry⟩

/-! ## Continuous lists of junctions -/

section

omit [Field K] [LinearOrder K] [IsStrictOrderedRing K]

variable {u w : K} {js ks : List (Junction K)}

theorem joined_append : Joined v (js ++ ks) w ↔ ∃ u, Joined v js u ∧ Joined u ks w := by
  induction js generalizing v with
  | nil =>
    constructor
    · intro h
      exact ⟨v, rfl, h⟩
    · rintro ⟨u, rfl, h⟩
      exact h
  | cons j js ih =>
    constructor
    · rintro ⟨hj, h⟩
      obtain ⟨u, h₁, h₂⟩ := ih.mp h
      exact ⟨u, ⟨hj, h₁⟩, h₂⟩
    · rintro ⟨u, ⟨hj, h₁⟩, h₂⟩
      exact ⟨hj, ih.mpr ⟨u, h₁, h₂⟩⟩

theorem Joined.end_unique (h : Joined v js u) (h' : Joined v js w) : u = w := by
  induction js generalizing v with
  | nil => exact h.symm.trans h'
  | cons j js ih => exact ih h.2 h'.2

end

/-! ## The invariant of runs -/

variable {s : State K}

/-- What holds after every run. -/
structure Invariant (root : SquareRoot K) (s : State K) : Prop where
  chained : Chained s.queue
  history : s.returned.map (fun p => p.move.data) ++ s.queue.map Move.data = s.added
  feasible : ∀ p ∈ s.returned, ∃ j, p.junction = some j ∧ Feasible root p.move j
  joined : ∃ js v, s.returned.map Planned.junction = js.map some ∧
    Joined 0 js v ∧ Decided v s.queue ∧
    ∀ n ∈ s.stops, n ≤ js.length ∧ Joined 0 (js.take n) 0

omit [IsStrictOrderedRing K] in
theorem invariant_init (root : SquareRoot K) : Invariant root (State.init : State K) := by
  refine ⟨⟨nofun, isChain_nil⟩, rfl, nofun, [], 0, rfl, rfl, decided_nil, ?_⟩
  intro n hn
  rw [mem_singleton.mp hn]
  exact ⟨le_refl 0, rfl⟩

omit [IsStrictOrderedRing K] in
theorem Chained.concat (h : Chained ms) (hm : Limits m)
    (hl : ∀ prev, ms.getLast? = some prev → Linked prev m) : Chained (ms ++ [m]) := by
  refine ⟨?_, isChain_append.mpr ⟨h.linked, isChain_singleton m, ?_⟩⟩
  · exact forall_mem_append.mpr ⟨h.limits, forall_mem_singleton.mpr hm⟩
  · intro prev hprev r hr
    cases Option.mem_some.mp hr
    exact hl prev hprev

/-- A queue with a move added. -/
theorem Invariant.append {data : MoveData K} (h : Invariant root s) (hd : m.data = data)
    (hc : Chained (s.queue ++ [m])) (hrest : s.queue = [] → m.maxStartV2 = 0 ∧ m.maxSmoothedV2 = 0)
    (junctionFlush : K) :
    Invariant root { s with
      queue := s.queue ++ [m]
      junctionFlush := junctionFlush
      added := s.added ++ [data] } := by
  obtain ⟨js, v, hjs, hj, hdec, hstops⟩ := h.joined
  refine ⟨hc, ?_, h.feasible, js, v, hjs, hj, ?_, hstops⟩
  · show _ ++ (s.queue ++ [m]).map Move.data = s.added ++ [data]
    rw [map_append, ← append_assoc, h.history, map_singleton, hd]
  · show Decided v (s.queue ++ [m])
    by_cases hne : s.queue = []
    · obtain ⟨hstart, hsmoothed⟩ := hrest hne
      rw [hdec.1 hne, hne, nil_append]
      exact decided_of_rest hstart hsmoothed
    · refine hdec.extend hne ?_
      rw [map_append]
      exact prefix_append _ _

theorem Invariant.addMove (h : Invariant root s) (data : MoveData K)
    {eaV2 : List K} (hea : ∀ a ∈ eaV2, 0 ≤ a) : Invariant root (s.addMove root data eaV2).1 := by
  cases hlast : s.queue.getLast? with
  | none =>
    rw [State.addMove, hlast]
    refine h.append rfl (h.chained.concat (limits_init data) ?_)
      (fun _ => ⟨rfl, rfl⟩) s.junctionFlush
    intro prev hprev
    rw [hlast] at hprev
    cases hprev
  | some prev =>
    have hprev : Limits prev := h.chained.limits prev (mem_of_getLast? hlast)
    obtain ⟨hlimits, hlinked⟩ := calcJunction_linked root hprev data hea
    rw [State.addMove, hlast]
    refine h.append ?_ (h.chained.concat hlimits ?_) ?_ _
    · rw [Move.calcJunction]
      split <;> rfl
    · intro prev' hprev'
      rw [hlast] at hprev'
      cases hprev'
      exact hlinked
    · intro hnil
      rw [hnil] at hlast
      cases hlast

omit [IsStrictOrderedRing K] in
/-- A queue with other limits for the next junctions. -/
theorem Invariant.relimit (h : Invariant root s) {queue : List (Move K)}
    (hlimits : ∀ m ∈ queue, Limits m) (hspeeds : queue.map Move.speeds = s.queue.map Move.speeds) :
    Invariant root { s with queue := queue } := by
  have hdata : queue.map Move.data = s.queue.map Move.data := by
    have hmap := congrArg (List.map Move.data) hspeeds
    rw [map_map, map_map] at hmap
    exact hmap
  have hchain : queue.IsChain Linked := by
    rw [← isChain_speeds, hspeeds, isChain_speeds]
    exact h.chained.linked
  obtain ⟨js, v, hjs, hj, hdec, hstops⟩ := h.joined
  refine ⟨⟨hlimits, hchain⟩, ?_, h.feasible, js, v, hjs, hj, ?_, hstops⟩
  · show _ ++ queue.map Move.data = s.added
    rw [hdata]
    exact h.history
  · show Decided v queue
    by_cases hne : s.queue = []
    · have hnil : queue = [] := by
        rw [hne, map_nil, map_eq_nil_iff] at hspeeds
        exact hspeeds
      rw [hnil, ← hne]
      exact hdec
    · exact hdec.extend hne (hspeeds ▸ prefix_refl _)

theorem Invariant.limitNextJunctionSpeed (h : Invariant root s) (speed : K) :
    Invariant root (s.limitNextJunctionSpeed speed) := by
  cases hlast : s.queue.getLast? with
  | none =>
    rw [State.limitNextJunctionSpeed, hlast]
    exact h
  | some last =>
    rw [State.limitNextJunctionSpeed, hlast]
    refine h.relimit ?_ ?_
    · have hl := h.chained.limits last (mem_of_getLast? hlast)
      exact forall_mem_append.mpr
        ⟨fun m hm => h.chained.limits m (mem_of_mem_dropLast hm),
          forall_mem_singleton.mpr
            { hl with next_nonneg := le_min hl.next_nonneg (sq_nonneg speed) }⟩
    · have hqueue : s.queue.dropLast ++ [last] = s.queue := dropLast_append_getLast? last hlast
      have hmap := congrArg (List.map Move.speeds) hqueue
      rw [map_append] at hmap ⊢
      exact hmap

/-! ## Flushes -/

omit [IsStrictOrderedRing K] in
theorem planned_junction {js : List (Junction K)} (hlen : js.length = ms.length) :
    (planned ms js).map Planned.junction = js.map some := by
  rw [planned, map_zipWith]
  exact ext_getElem (by simp [hlen]) fun k _ _ => by simp

omit [IsStrictOrderedRing K] in
theorem planned_data {js : List (Junction K)} (hlen : js.length = ms.length) :
    (planned ms js).map (fun p => p.move.data) = ms.map Move.data := by
  rw [planned, map_zipWith]
  exact ext_getElem (by simp [hlen]) fun k _ _ => by simp

omit [IsStrictOrderedRing K] in
/-- Moves are returned with junctions that are feasible for them. -/
theorem planned_feasible {js : List (Junction K)} (h : List.Forall₂ (Feasible root) ms js) :
    ∀ p ∈ planned ms js, ∃ j, p.junction = some j ∧ Feasible root p.move j := by
  induction h with
  | nil => exact nofun
  | @cons m j ms js hmj _ ih => exact forall_mem_cons.mpr ⟨⟨j, rfl, hmj⟩, ih⟩

/-- What is before and after the place where a flush ends. -/
theorem exists_split {count : Nat} {lazy : Bool} {queue : List (Move K)}
    (h : (lazy = false ∧ count = queue.length) ∨ (lazy = true ∧ CutAt 0 queue count)) :
    ∃ front rest, queue = front ++ rest ∧ count = front.length ∧
      ¬ Waits rest ∧ Decided (entryV2 0 rest) rest ∧ (lazy = false → rest = []) := by
  rcases h with ⟨-, rfl⟩ | ⟨hlazy, front, m, rest, rfl, hcount, hp, hpeak⟩
  · refine ⟨queue, [], (append_nil queue).symm, rfl, fun hw => hw, ?_, fun _ => rfl⟩
    have hzero : entryV2 (0 : K) [] = 0 := min_self 0
    rw [hzero]
    exact decided_nil
  · refine ⟨front, m :: rest, rfl, ?_, hp.1, decided_of_peaks hp hpeak, ?_⟩
    · rw [hcount, Nat.zero_add]
    · intro hfalse
      rw [hlazy] at hfalse
      cases hfalse

omit [IsStrictOrderedRing K] in
/-- The front of the queue is returned with feasible junctions that lead to
    the speed at which the rest is entered. -/
theorem Invariant.returns {front rest : List (Move K)} {ks : List (Junction K)}
    {u : K} {stops : List Nat} (h : Invariant root s)
    (hq : s.queue = front ++ rest) (hf : List.Forall₂ (Feasible root) front ks)
    (hj : Joined (entryV2 0 s.queue) ks u) (hd : Decided u rest)
    (hstops : stops = s.stops ∨ u = 0 ∧
      stops = s.stops ++ [(s.returned ++ planned front ks).length])
    (junctionFlush : K) :
    Invariant root { s with
      queue := rest
      junctionFlush := junctionFlush
      returned := s.returned ++ planned front ks
      stops := stops } := by
  obtain ⟨js, v, hjs, hjoin, hdec, hold⟩ := h.joined
  rw [(hdec.entry h.chained).2] at hj
  have hlen : ks.length = front.length := hf.length_eq.symm
  have hlen' : (s.returned ++ planned front ks).length = (js ++ ks).length := by
    have hmap := congrArg List.length hjs
    rw [length_map, length_map] at hmap
    rw [length_append, length_append, hmap, planned, length_zipWith, hlen, min_self]
  have hall : Joined 0 (js ++ ks) u := joined_append.mpr ⟨v, hjoin, hj⟩
  have hkept : ∀ n ∈ s.stops, n ≤ (js ++ ks).length ∧ Joined 0 ((js ++ ks).take n) 0 := by
    intro n hn
    obtain ⟨hle, hstop⟩ := hold n hn
    rw [take_append_of_le_length hle, length_append]
    exact ⟨hle.trans (Nat.le_add_right _ _), hstop⟩
  have hc := h.chained
  rw [hq] at hc
  refine ⟨?_, ?_, ?_, js ++ ks, u, ?_, hall, hd, ?_⟩
  · exact ⟨fun m hm => hc.limits m (mem_append_right _ hm), (isChain_append.mp hc.linked).2.1⟩
  · show (s.returned ++ planned front ks).map _ ++ rest.map _ = s.added
    rw [← h.history, hq, map_append, planned_data hlen, map_append, append_assoc]
  · exact forall_mem_append.mpr ⟨h.feasible, planned_feasible hf⟩
  · show (s.returned ++ planned front ks).map _ = _
    rw [map_append, hjs, planned_junction hlen, map_append]
  · rcases hstops with rfl | ⟨rfl, rfl⟩
    · exact hkept
    · refine forall_mem_append.mpr ⟨hkept, forall_mem_singleton.mpr ?_⟩
      rw [hlen', take_length]
      exact ⟨le_refl _, hall⟩

/-- **FLUSHES KEEP THE INVARIANT**, and full ones empty the queue. -/
theorem Invariant.flush (h : Invariant root s) (lazy : Bool) :
    Invariant root (s.flush root lazy) ∧ (lazy = false → (s.flush root lazy).queue = []) := by
  obtain ⟨-, v, -, -, hdec, -⟩ := h.joined
  obtain ⟨hw, hentry⟩ := hdec.entry h.chained
  rcases flush_eq root lazy hw with ⟨rfl, hf⟩ | ⟨count, hcase, hf⟩
  · rw [State.flush, hf]
    refine ⟨?_, nofun⟩
    have hsplit : s.queue = [] ++ s.queue := rfl
    have hjoined : Joined (entryV2 0 s.queue) [] v := hentry
    exact h.returns hsplit .nil hjoined hdec (.inl rfl) _
  · obtain ⟨front, rest, hq, hcount, hrest, hdec', hfull⟩ := exists_split hcase
    obtain ⟨ks, hks⟩ : ∃ ks, ks = (plan root 0 s.queue).take front.length := ⟨_, rfl⟩
    have hcarries : Carries 0 s.queue := fun hc => absurd hc hw
    have hfront : s.queue.take count = front := by rw [hcount, hq, take_left]
    have hback : s.queue.drop count = rest := by rw [hcount, hq, drop_left]
    have hfeasible : List.Forall₂ (Feasible root) front ks := by
      have hplan : List.Forall₂ (Feasible root) s.queue
          (plan root 0 s.queue) := plan_feasible h.chained hcarries
      have hall := List.forall₂_take count hplan
      rw [hfront, hcount, ← hks] at hall
      exact hall
    have hjoined : Joined (entryV2 0 s.queue) ks (entryV2 0 rest) := by
      have hc := h.chained
      rw [hq] at hc hcarries
      rw [hks, hq]
      exact plan_joined hc hrest hcarries
    rw [State.flush, hf, hfront, hback, hcount, ← hks]
    refine ⟨h.returns hq hfeasible hjoined hdec' ?_ _, hfull⟩
    cases lazy with
    | true => exact .inl rfl
    | false =>
      refine .inr ⟨?_, rfl⟩
      rw [hfull rfl]
      exact min_self 0

/-- A full flush returns what has been added. -/
theorem Invariant.flush_returned (h : Invariant root s) :
    (s.flush root false).returned.map (fun p => p.move.data) = s.added := by
  obtain ⟨h', hempty⟩ := h.flush false
  have hhistory := h'.history
  rw [hempty rfl, map_nil, append_nil] at hhistory
  exact hhistory

/-! ## Runs -/

/-- Every operation keeps the invariant. -/
theorem Invariant.step (h : Invariant root s) (op : Op K) : Invariant root (s.step root op) := by
  cases op with
  | addMove data eaV2 =>
    refine h.addMove data ?_
    intro a ha
    obtain ⟨⟨b, hb⟩, -, rfl⟩ := mem_map.mp ha
    exact hb
  | flush lazy => exact (h.flush lazy).1
  | limitNextJunctionSpeed speed => exact h.limitNextJunctionSpeed speed
  | setFlushTime flushTime => exact { h with }

theorem invariant_run (root : SquareRoot K) (ops : List (Op K)) : Invariant root (run root ops) :=
  List.foldlRecOn (motive := Invariant root) ops _ (invariant_init root) fun _ h op _ => h.step op

/-- The moves come out as they went in, and the speed does not jump from one to the next; at the
    start and after a full flush it is zero. -/
structure SpeedsContinuous (s : State K) : Prop where
  history : s.returned.map (fun p => p.move.data) ++ s.queue.map Move.data = s.added
  joined : ∀ k p q, s.returned[k]? = some p → s.returned[k + 1]? = some q →
    ∃ i j, p.junction = some i ∧ q.junction = some j ∧ i.endV2 = j.startV2
  starts : ∀ n ∈ s.stops, ∀ p, s.returned[n]? = some p → ∃ j, p.junction = some j ∧ j.startV2 = 0
  stops : ∀ n, n + 1 ∈ s.stops → ∀ p, s.returned[n]? = some p →
    ∃ j, p.junction = some j ∧ j.endV2 = 0

section

omit [Field K] [LinearOrder K] [IsStrictOrderedRing K]

variable {u w : K} {js : List (Junction K)} {i j : Junction K} {n : Nat}

/-- The speed of a continuous list at any place. -/
theorem Joined.split (h : Joined v js w) (n : Nat) :
    ∃ u, Joined v (js.take n) u ∧ Joined u (js.drop n) w := by
  rw [← take_append_drop n js] at h
  exact joined_append.mp h

theorem Joined.start_of_take (h : Joined v js w) (hn : Joined v (js.take n) u)
    (hj : js[n]? = some j) : j.startV2 = u := by
  obtain ⟨u', h₁, h₂⟩ := h.split n
  obtain ⟨hlt, rfl⟩ := List.getElem?_eq_some_iff.mp hj
  rw [drop_eq_getElem_cons hlt] at h₂
  rw [h₂.1, h₁.end_unique hn]

theorem Joined.end_of_take (hn : Joined v (js.take (n + 1)) u)
    (hi : js[n]? = some i) : i.endV2 = u := by
  obtain ⟨hlt, rfl⟩ := List.getElem?_eq_some_iff.mp hi
  rw [take_succ_eq_append_getElem hlt] at hn
  obtain ⟨u', -, -, h₂⟩ := joined_append.mp hn
  exact h₂

end

omit [IsStrictOrderedRing K] in
theorem Invariant.speedsContinuous (h : Invariant root s) : SpeedsContinuous s := by
  obtain ⟨js, v, hjs, hj, -, hstops⟩ := h.joined
  -- the junction of a returned move is the one at its place
  have hget : ∀ (k : Nat) (p : Planned K), s.returned[k]? = some p →
      ∃ j, p.junction = some j ∧ js[k]? = some j := by
    intro k p hp
    have hk := congrArg (fun l => l[k]?) hjs
    simp only [getElem?_map, hp, Option.map_some] at hk
    obtain ⟨j, hjk, hpj⟩ := Option.map_eq_some_iff.mp hk.symm
    exact ⟨j, hpj.symm, hjk⟩
  refine ⟨h.history, ?_, ?_, ?_⟩
  · intro k p q hp hq
    obtain ⟨i, hpi, hi⟩ := hget k p hp
    obtain ⟨j, hqj, hj'⟩ := hget (k + 1) q hq
    obtain ⟨u, hu, -⟩ := hj.split (k + 1)
    refine ⟨i, j, hpi, hqj, ?_⟩
    rw [hu.end_of_take hi, hj.start_of_take hu hj']
  · intro n hn p hp
    obtain ⟨j, hpj, hj'⟩ := hget n p hp
    exact ⟨j, hpj, hj.start_of_take (hstops n hn).2 hj'⟩
  · intro n hn p hp
    obtain ⟨j, hpj, hj'⟩ := hget n p hp
    exact ⟨j, hpj, (hstops (n + 1) hn).2.end_of_take hj'⟩

/-! ## Real numbers -/

/-- `math.sqrt` over the reals. -/
noncomputable def SquareRoot.real : SquareRoot ℝ where
  sqrt := Real.sqrt
  nonneg := Real.sqrt_nonneg
  pos := fun _ => Real.sqrt_pos_of_pos

/-- **PLANNING IS FEASIBLE**: each move returned has a junction within its limits, for which it
    is long enough. -/
theorem returned_feasible (ops : List (Op ℝ)) :
    ∀ p ∈ (run SquareRoot.real ops).returned, ∃ j, p.junction = some j ∧
      Feasible SquareRoot.real p.move j :=
  (invariant_run SquareRoot.real ops).feasible

/-- A move of 10 mm at no more than 100 mm/s. -/
noncomputable def sampleMove : MoveData ℝ where
  moveD := 10
  accel := 1000
  maxCruiseV2 := 10000
  smoothDeltaV2 := 10000
  junctionDeviation := 0
  minMoveT := 1 / 10
  isKinematicMove := true
  axesR := (1, 0, 0)
  moveD_pos := by norm_num
  accel_pos := by norm_num
  maxCruiseV2_pos := by norm_num
  smoothDeltaV2_pos := by norm_num
  smoothDeltaV2_le := by norm_num
  junctionDeviation_nonneg := le_refl 0

/-- The next move, around a corner. -/
noncomputable def turnedMove : MoveData ℝ :=
  { sampleMove with
    junctionDeviation := 1 / 100
    axesR := (0, 1, 0)
    junctionDeviation_nonneg := by norm_num }

theorem returned_feasible_corner :
    ∃ p q, (run SquareRoot.real [.addMove sampleMove [], .addMove turnedMove [],
        .flush false]).returned = [p, q] ∧ p.move.data = sampleMove ∧ q.move.data = turnedMove ∧
      ∀ m ∈ [p, q], ∃ j, m.junction = some j ∧ Feasible SquareRoot.real m.move j := by
  obtain ⟨p, rest, hreturned, hp, hrest⟩ := map_eq_cons_iff.mp (invariant_run SquareRoot.real
    [.addMove sampleMove [], .addMove turnedMove []]).flush_returned
  obtain ⟨q, rfl, hq⟩ := map_eq_singleton_iff.mp hrest
  refine ⟨p, q, hreturned, hp, hq, fun m hm => ?_⟩
  refine returned_feasible [.addMove sampleMove [], .addMove turnedMove [], .flush false] m ?_
  exact hreturned ▸ hm

/-- **PLANNING IS CONTINUOUS**, within and across flushes, and a full flush returns every move. -/
theorem returned_continuous (ops : List (Op ℝ)) :
    SpeedsContinuous (run SquareRoot.real ops) ∧
      ((run SquareRoot.real ops).flush SquareRoot.real false).queue = [] := by
  have h := invariant_run SquareRoot.real ops
  exact ⟨h.speedsContinuous, (h.flush false).2 rfl⟩

end Lookahead
