import Pick.StepTrainProofs
import Pick.StepWordsProofs

/-! # Flushing never fails

The windows of a queue of increasing steps are disjoint and in order, so the
search returns a sequence that fits them.  Such a sequence passes `check_line`,
`add_move` computes the clock of its last step, and what is left in the queue is
again a queue of increasing steps. -/

namespace Stepcompress

open List Quadratic Words

/-! ## The windows of a queue -/

/-- The clock of the step before a place of the queue. -/
def clockBefore (lastStepClock : ℕ) (ts : List ℕ) (k : ℕ) : ℕ := (ts.take k).getLastD lastStepClock

section Clocks

variable {sc : State} {ts : List ℕ} {k : ℕ}

theorem clockBefore_succ (lastStepClock : ℕ) (hk : k < ts.length) :
    clockBefore lastStepClock ts (k + 1) = ts.get ⟨k, hk⟩ := by
  rw [clockBefore, take_succ_eq_append_getElem hk, getLastD_concat]
  rfl

theorem split_at (hk : k < ts.length) : ts.take k ++ ts.get ⟨k, hk⟩ :: ts.drop (k + 1) = ts := by
  rw [get_eq_getElem, ← drop_eq_getElem_cons hk, take_append_drop]

theorem getD_eq_clockBefore (lastStepClock : ℕ) (hk : k < ts.length) :
    ts.getD k 0 = clockBefore lastStepClock ts (k + 1) := by
  rw [clockBefore_succ lastStepClock hk, getD_eq_getElem ts 0 hk]
  rfl

/-- The clocks do not decrease, and increase after the first. -/
theorem Pending.clockBefore_le (h : Pending sc ts) (hk : k < ts.length) :
    sc.lastStepClock ≤ clockBefore sc.lastStepClock ts k ∧
      clockBefore sc.lastStepClock ts k ≤ clockBefore sc.lastStepClock ts (k + 1) ∧
      clockBefore sc.lastStepClock ts (k + 1) < sc.lastStepClock + clockDiffMax := by
  rw [clockBefore_succ _ hk]
  have hsplit := h
  rw [← split_at hk] at hsplit
  obtain ⟨hle, hle'⟩ := hsplit.prev_le
  exact ⟨hle, hle', h.near _ (get_mem ts ⟨k, hk⟩)⟩

theorem Pending.clockBefore_lt (h : Pending sc ts) (hk : k + 1 < ts.length) :
    clockBefore sc.lastStepClock ts (k + 1) < clockBefore sc.lastStepClock ts (k + 1 + 1) := by
  rw [clockBefore_succ _ hk, clockBefore_succ _ (Nat.lt_of_succ_lt hk)]
  exact isChain_iff_getElem.mp h.sorted k hk

/-- A window in integers. -/
theorem exact_point (h : Pending sc ts) (maxError : ℕ) (hk : k < ts.length) :
    let p : ℤ := clockBefore sc.lastStepClock ts (k + 1)
    let q : ℤ := clockBefore sc.lastStepClock ts k
    Exact.minmaxPoint sc.lastStepClock maxError ts k =
      ⟨p - sc.lastStepClock - min ((p - q) / 2) maxError, p - sc.lastStepClock⟩ := by
  intro p q
  obtain ⟨-, hle, -⟩ := h.clockBefore_le hk
  have hprev : (if 0 < k then ((ts.getD (k - 1) 0 : ℕ) : ℤ) - sc.lastStepClock else 0) =
      q - sc.lastStepClock := by
    cases k with
    | zero => exact (sub_self (sc.lastStepClock : ℤ)).symm
    | succ k =>
      rw [if_pos (Nat.succ_pos k), Nat.add_sub_cancel,
        getD_eq_clockBefore sc.lastStepClock (Nat.lt_of_succ_lt hk)]
  rw [Exact.minmaxPoint, getD_eq_clockBefore sc.lastStepClock hk, hprev, sub_sub_sub_cancel_right]
  have hhalf : (p - q).tdiv 2 = (p - q) / 2 := Int.tdiv_eq_ediv_of_nonneg (by omega)
  change Exact.Points.mk (p - sc.lastStepClock - if (p - q).tdiv 2 > maxError then
    (maxError : ℤ) else (p - q).tdiv 2) (p - sc.lastStepClock) = _
  rw [hhalf]
  congr 2
  split <;> omega

/-- The words of a window. -/
theorem point_words (h : Pending sc ts) (hk : k < ts.length) :
    minmaxPoint sc k = (Exact.minmaxPoint sc.lastStepClock sc.maxError.toNat ts k).words := by
  obtain ⟨hle, hle', hlt⟩ := h.clockBefore_le hk
  have hfar : clockDiffMax < 2 ^ 31 := by decide
  have hsplit := h
  rw [← split_at hk] at hsplit
  obtain ⟨hmin, hmax⟩ := hsplit.minmaxPoint
  rw [length_take_of_le hk.le, ← clockBefore_succ sc.lastStepClock hk] at hmin hmax
  change _ = clockBefore sc.lastStepClock ts (k + 1) - sc.lastStepClock - min
    ((clockBefore sc.lastStepClock ts (k + 1) - clockBefore sc.lastStepClock ts k) / 2)
    sc.maxError.toNat at hmin
  rw [exact_point h _ hk, Exact.Points.words]
  dsimp only
  rw [← eq_ofInt_of_toNat (x := (minmaxPoint sc k).minp) (by omega) (by omega),
    ← eq_ofInt_of_toNat (x := (minmaxPoint sc k).maxp) (by omega) (by omega)]

/-- **THE WINDOWS OF A QUEUE** are disjoint and in order. -/
theorem Pending.windowsOf (h : Pending sc ts) (hne : ts ≠ []) (hmax : sc.maxError.toNat < 2 ^ 15) :
    WindowsOf sc (Exact.minmaxPoint sc.lastStepClock sc.maxError.toNat ts)
      (min ts.length 65535) := by
  have hlength := length_pos_iff.mpr hne
  have hpoint : ∀ k < ts.length, ∀ pt,
      pt = Exact.minmaxPoint sc.lastStepClock sc.maxError.toNat ts k →
      0 ≤ pt.minp ∧ pt.minp ≤ pt.maxp ∧ pt.maxp < clockDiffMax ∧
        pt.maxp ≤ pt.minp + sc.maxError.toNat := by
    rintro k hk _ rfl
    obtain ⟨hle, hmono, hnear⟩ := h.clockBefore_le hk
    rw [exact_point h _ hk]
    dsimp only
    omega
  refine ⟨⟨(hpoint 0 hlength _ rfl).1, ?_, fun k hk hle => ?_, fun k hk hle => ?_⟩,
    min_le_right _ _, fun k hk => point_words h (by omega), (hpoint 0 hlength _ rfl).2.2.2, hmax⟩
  · intro k hk hlt
    obtain ⟨k, rfl⟩ : ∃ j, k = j + 1 := ⟨k - 1, by omega⟩
    have hnext := h.clockBefore_lt (show k + 1 < ts.length by omega)
    show (Exact.minmaxPoint _ _ ts k).maxp < (Exact.minmaxPoint _ _ ts (k + 1)).minp
    rw [exact_point h _ (show k < ts.length by omega),
      exact_point h _ (show k + 1 < ts.length by omega)]
    dsimp only
    omega
  · exact (hpoint (k - 1) (by omega) _ rfl).2.1
  · exact (hpoint (k - 1) (by omega) _ rfl).2.2.1

end Clocks

/-! ## Checking what was found -/

section Check

variable {sc : State} {pt : ℕ → Exact.Points} {qlast : ℕ} {m : Exact.Move}
  (hr : WindowsOf sc pt qlast) (hm : Exact.Found pt qlast m)
include hr hm

/-- The parameters of a move that was found fit into `step_move`. -/
theorem found_words :
    (m.words.interval.toNat : ℤ) = m.interval ∧ m.interval < 2 ^ 31 ∧
      m.words.count.toNat = m.count ∧ m.words.add.toInt = m.add := by
  obtain ⟨⟨-, hlt⟩, -⟩ := hr.signed hm.pos hm.fits hm.le
  have hnonneg : 0 ≤ m.interval := by
    obtain ⟨n, hn⟩ : ∃ n, m.count = n + 1 := ⟨m.count - 1, by have := hm.pos; omega⟩
    exact Fits.interval_nonneg hr.windows (hn ▸ hm.fits)
  have hcount := hm.le
  have hshort := hr.short
  have hge := hm.add_ge
  have hle := hm.add_le
  refine ⟨natCast_toNat_ofInt_of_lt hnonneg (by omega), hlt, ?_, ?_⟩
  · exact UInt16.toNat_ofNat_of_lt' (by show m.count < 2 ^ 16; omega)
  · exact Int16.toInt_ofInt_of_le (by omega) (by omega)

/-- From any step on, `check_line` accepts a sequence that fits. -/
theorem checkPoints_fits {left k : ℕ} (hk : k + left = m.count) :
    checkPoints sc m.words left k (.ofInt (m.interval + m.add * k))
      (.ofInt (value m.add m.interval k)) = .ok () := by
  induction left generalizing k with
  | zero => rfl
  | succ left ih =>
    have hle := hm.le
    have hfits := hm.fits.take (show k + 1 ≤ m.count by omega)
    have hmax : ((clockDiffMax : ℕ) : ℤ) = 805306368 := rfl
    obtain ⟨-, hlast, hlast', hnonneg, hlt⟩ := fits_bounds hr.windows hfits (by omega)
    obtain ⟨hlo, hhi⟩ := hfits (k + 1) (Nat.succ_pos k) (le_refl _)
    have hlo₀ := hr.windows.lo_nonneg (Nat.succ_pos k) (show k + 1 ≤ qlast by omega)
    have hhi₀ := hr.windows.bounded (k + 1) (Nat.succ_pos k) (by omega)
    have hp : UInt32.ofInt (value m.add m.interval k) +
        UInt32.ofInt (m.interval + m.add * k) = UInt32.ofInt (value m.add m.interval (k + 1)) := by
      rw [← UInt32.ofInt_add, value_succ]
    have hvalue := @natCast_toNat_ofInt_of_lt (value m.add m.interval (k + 1)) hnonneg (by omega)
    have hminp := @natCast_toNat_ofInt_of_lt (Exact.lo pt (k + 1)) hlo₀ (by omega)
    have hmaxp := @natCast_toNat_ofInt_of_lt (Exact.hi pt (k + 1)) (by omega) (by omega)
    have hinterval := @natCast_toNat_ofInt_of_lt (m.interval + m.add * k) hlast (by omega)
    have hinside : ¬ (.ofInt (value m.add m.interval (k + 1)) <
        (minmaxPoint sc k).minp.toUInt32 ∨
          UInt32.ofInt (value m.add m.interval (k + 1)) > (minmaxPoint sc k).maxp.toUInt32) := by
      rw [hr.points k (by omega)]
      show ¬ (_ < (Int32.ofInt (Exact.lo pt (k + 1))).toUInt32 ∨
        _ > (Int32.ofInt (Exact.hi pt (k + 1))).toUInt32)
      rw [toUInt32_ofInt, toUInt32_ofInt, gt_iff_lt, UInt32.lt_iff_toNat_lt, UInt32.lt_iff_toNat_lt]
      omega
    have hsmall : ¬ UInt32.ofInt (m.interval + m.add * k) ≥ 0x80000000 := by
      rw [ge_iff_le, UInt32.le_iff_toNat_le]
      show ¬ 0x80000000 ≤ _
      omega
    have hadvance : advance (.ofInt (m.interval + m.add * k)) m.words.add =
        UInt32.ofInt (m.interval + m.add * ((k + 1 : ℕ) : ℤ)) := by
      rw [advance, toUInt32_toInt32_int16, (found_words hr hm).2.2.2, ← UInt32.ofInt_add]
      congr 1
      push_cast
      ring
    rw [checkPoints, hp, if_neg hinside, if_neg hsmall, hadvance]
    exact ih (by omega)

/-- **`check_line` ACCEPTS** what the search finds. -/
theorem checkLine_found : checkLine sc m.words = .ok () := by
  obtain ⟨hinterval, hlt, hcount, hadd⟩ := found_words hr hm
  have hpos := hm.pos
  have hle := hm.le
  have hvalid : ¬ (m.words.count = 0 ∨
      (m.words.interval = 0 ∧ m.words.add = 0 ∧ m.words.count > 1) ∨
        m.words.interval ≥ 0x80000000) := by
    rintro (hzero | ⟨hzero, hflat, hmany⟩ | hbig)
    · rw [hzero] at hcount
      exact absurd hcount (by show ¬ 0 = m.count; omega)
    · -- the second step is after the first
      rw [hzero] at hinterval
      rw [hflat] at hadd
      rw [gt_iff_lt, UInt16.lt_iff_toNat_lt, hcount] at hmany
      have hmany' : 1 < m.count := hmany
      have hsecond := (hm.fits 2 (by decide) hmany').1
      have hfirst : Exact.hi pt 1 < Exact.lo pt 2 := hr.windows.ordered 1 (le_refl _) (by omega)
      have hstart := hr.windows.first
      have hwindow := hr.windows.nonempty 1 (le_refl _) (by omega)
      have hstill : value m.add m.interval 2 = 0 := by
        rw [← hadd, ← hinterval]
        rfl
      omega
    · rw [ge_iff_le, UInt32.le_iff_toNat_le] at hbig
      have hbig' : 0x80000000 ≤ m.words.interval.toNat := hbig
      omega
  have hpoints := @checkPoints_fits sc pt qlast m hr hm m.count 0 (zero_add _)
  have hstart : m.interval + m.add * ((0 : ℕ) : ℤ) = m.interval := by
    rw [Nat.cast_zero, mul_zero, add_zero]
  have hzero : value m.add m.interval 0 = 0 := by
    rw [value, Nat.choose_zero_succ, Nat.cast_zero, mul_zero, mul_zero, add_zero]
  rw [hstart, hzero] at hpoints
  rw [checkLine, if_neg hvalid, hcount]
  exact hpoints

end Check

/-! ## Compressing and flushing -/

section Flush

variable {sc : State} {ts : List ℕ} {fuel : ℕ}

/-- What `compress_bisect_add` returns for a queue: the move `m` in words. -/
structure Compressed (fuel : ℕ) (sc : State) (ts : List ℕ) (move : StepMove)
    (m : Exact.Move) : Prop where
  words : compressBisectAdd fuel sc = some move
  integers : Exact.compressBisectAdd fuel sc.lastStepClock sc.maxError.toNat ts = some m
  interval : (move.interval.toNat : ℤ) = m.interval
  count : move.count.toNat = m.count
  add : move.add.toInt = m.add
  count_pos : 1 ≤ m.count
  count_le : m.count ≤ 65535
  in_queue : m.count ≤ ts.length
  add_ge : -2 ^ 15 ≤ m.add
  add_lt : m.add < 2 ^ 15
  checked : checkLine sc move = .ok ()
  last : ((addMove sc (sc.lastStepClock + move.interval.toNat) move).lastStepClock : ℤ) =
    sc.lastStepClock + m.count * m.interval + m.add * (m.count.choose 2)

section Compress

variable (h : Pending sc ts) (hne : ts ≠ []) (hmax : sc.maxError.toNat < 2 ^ 15)
include h hne hmax

/-- **COMPRESSING A QUEUE** on words is compressing it in integers. -/
theorem compressBisectAdd_words :
    compressBisectAdd fuel sc =
      (Exact.compressBisectAdd fuel sc.lastStepClock sc.maxError.toNat ts).map
        Exact.Move.words := by
  have hlength := length_pos_iff.mpr hne
  have hr := h.windowsOf hne hmax
  have hq : 1 ≤ min ts.length 65535 := by omega
  rw [Exact.compressBisectAdd, ← bisect_words hr hq (Exact.search_start hr.windows hq),
    compressBisectAdd, h.length_queue, point_words h hlength]
  rfl

/-- It finds a sequence that fits. -/
theorem compressBisectAdd_found (hfuel : 2 ^ 16 ≤ fuel) :
    ∃ m, Exact.compressBisectAdd fuel sc.lastStepClock sc.maxError.toNat ts = some m ∧
      Exact.Found (Exact.minmaxPoint sc.lastStepClock sc.maxError.toNat ts)
        (min ts.length 65535) m := by
  have hlength := length_pos_iff.mpr hne
  have hr := h.windowsOf hne hmax
  have hq : 1 ≤ min ts.length 65535 := by omega
  refine Exact.bisect_found hr.windows hq (Exact.search_start hr.windows hq) ?_
  show (0x7fff : ℤ) - -0x8000 < fuel
  omega

theorem Pending.compressed (hfuel : 2 ^ 16 ≤ fuel) : ∃ move m, Compressed fuel sc ts move m := by
  obtain ⟨m, hsome, hm⟩ := compressBisectAdd_found h hne hmax hfuel
  have hr := h.windowsOf hne hmax
  obtain ⟨hinterval, -, hcount, hadd⟩ := found_words hr hm
  have hok := checkLine_found hr hm
  have hle := hm.le
  have hge := hm.add_ge
  have hadd_le := hm.add_le
  have hlen : m.words.count.toNat ≤ ts.length := by omega
  obtain ⟨-, -, hlast⟩ := checkLine_follows h hlen hok
  refine ⟨m.words, m, ?_, hsome, hinterval, hcount, hadd, hm.pos, by omega, by omega,
    by omega, by omega, hok, ?_⟩
  · rw [compressBisectAdd_words h hne hmax, hsome]
    rfl
  · rw [Ramp.stop_eq, hcount, hadd, hinterval, nsmul_eq_mul, nsmul_eq_mul,
      mul_comm (m.count.choose 2 : ℤ)] at hlast
    exact hlast

end Compress

/-- A flush ends without an error. -/
theorem flushLoop_ok {moveClock : WithTop ℕ} (hfuel : 2 ^ 16 ≤ fuel) {turns : ℕ}
    (h : Pending sc ts) (hmax : sc.maxError.toNat < 2 ^ 15) (hne : ts ≠ [])
    (hturns : ts.length ≤ turns) : ∃ sc', flushLoop fuel moveClock turns sc = .ok sc' := by
  induction turns generalizing sc ts with
  | zero => exact absurd (length_pos_iff.mpr hne) (by omega)
  | succ turns ih =>
    obtain ⟨move, m, hc⟩ := h.compressed hne hmax hfuel
    have hqueue := h.length_queue
    have hcount := hc.count
    have hpos := hc.count_pos
    have hlen := hc.in_queue
    rw [flushLoop]
    split
    · rw [hc.words]
      dsimp only
      rw [hc.checked]
      dsimp only
      split
      · exact ⟨_, rfl⟩
      · rename_i hmore
        have hmore' : ¬ move.count.toNat ≥ sc.queue.length := hmore
        refine ih (h.addMove (by omega) hc.checked rfl rfl).2 hmax ?_ ?_
        · rw [← length_pos_iff, length_drop]
          omega
        · rw [length_drop]
          omega
    · exact ⟨_, rfl⟩

theorem queueFlush_ok (hfuel : 2 ^ 16 ≤ fuel) (h : Pending sc ts)
    (hmax : sc.maxError.toNat < 2 ^ 15) (moveClock : WithTop ℕ) :
    ∃ sc', queueFlush fuel moveClock sc = .ok sc' := by
  have hqueue := h.length_queue
  rw [queueFlush]
  split
  · exact ⟨sc, rfl⟩
  · rename_i hne
    have hpos := length_pos_iff.mpr hne
    refine flushLoop_ok hfuel h hmax ?_ hqueue.ge
    rw [← length_pos_iff]
    omega

/-- **THE COMPRESSOR NEVER FAILS**: on increasing clocks near the last step
    `compress_bisect_add` ends with the words of the search in integers, `check_line` passes its
    move and `add_move` its clock; so a flush ends without an error. -/
theorem compressor_never_fails (h : Pending sc ts) (hmax : sc.maxError.toNat < 2 ^ 15)
    (hfuel : 2 ^ 16 ≤ fuel) :
    (ts ≠ [] → ∃ move m, Compressed fuel sc ts move m) ∧
      ∀ moveClock, ∃ sc', queueFlush fuel moveClock sc = .ok sc' :=
  ⟨fun hne => h.compressed hne hmax hfuel, queueFlush_ok hfuel h hmax⟩

/-- A stepper with four steps to send, each sooner after the one before. -/
def speedingUp : State := { alloc 25 false 0 with queue := [1000, 1900, 2700, 3400] }

theorem compressor_never_fails_speedingUp :
    Pending speedingUp [1000, 1900, 2700, 3400] ∧
      (∃ move m, Compressed (2 ^ 16) speedingUp [1000, 1900, 2700, 3400] move m) ∧
      ∀ moveClock, ∃ sc', queueFlush (2 ^ 16) moveClock speedingUp = .ok sc' := by
  have hpending : Pending speedingUp [1000, 1900, 2700, 3400] :=
    ⟨rfl, by decide, by decide, by decide⟩
  have hmain := compressor_never_fails hpending (by decide) (le_refl (2 ^ 16))
  exact ⟨hpending, hmain.1 (by decide), hmain.2⟩

end Flush

end Stepcompress
