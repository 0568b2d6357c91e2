import Mathlib

/-! # Slots that are given out again and again

A pool holds, for each of its slots, the time from which the slot is free.
The slot that is free first is given out, and put back with the time at
which its new use ends.  As long as the uses begin in the order in which
they were given out, no more of them are under way at any time than there
are slots.  If no use ends before its slot is free, they always do. -/

namespace Slots

open List

variable {α : Type} [LinearOrder α] {pool : Multiset α} {t : α}

/-- A use of a slot that was free from `free` on, until `release`. -/
structure Grant (α : Type) where
  free : α
  release : α

/-- The uses `gs` have been given out one after the other, and `pool` is what
    the slots then hold. -/
inductive Uses : Multiset α → List (Grant α) → Prop where
  | none (pool : Multiset α) : Uses pool []
  | grant {pool : Multiset α} {gs : List (Grant α)} {g : Grant α}
      (h : Uses pool gs) (hm : g.free ∈ pool) (hmin : ∀ x ∈ pool, g.free ≤ x) :
      Uses (g.release ::ₘ pool.erase g.free) (gs ++ [g])

variable {gs gs' : List (Grant α)}

/-- Of uses that may all have begun by `t`, each one that is under way holds a
    slot that is not free yet. -/
theorem Uses.countP_le (h : Uses pool gs) (hfree : ∀ g ∈ gs, g.free ≤ t) :
    gs.countP (t < ·.release) ≤ pool.countP (t < ·) := by
  induction h with
  | none pool => exact Nat.zero_le _
  | grant h hm hmin ih =>
    rename_i pool gs g
    have hgs := ih fun g' hg' => hfree g' (mem_append_left _ hg')
    have hg : ¬ t < g.free := not_lt.mpr (hfree g (by simp))
    -- the slot that is given out was free by then
    have hpool : pool.countP (t < ·) = (pool.erase g.free).countP (t < ·) := by
      conv_lhs => rw [← Multiset.cons_erase hm]
      rw [Multiset.countP_cons_of_neg _ hg]
    rw [countP_append, countP_singleton, Multiset.countP_cons, ← hpool]
    simp only [decide_eq_true_eq]
    exact Nat.add_le_add_right hgs _

theorem Uses.card_eq (hm : t ∈ pool) (x : α) : (x ::ₘ pool.erase t).card = pool.card := by
  rw [Multiset.card_cons, Multiset.card_erase_add_one hm]

/-- The first uses were given out from as many slots. -/
theorem Uses.of_prefix (h : Uses pool gs) (hpre : gs' <+: gs) :
    ∃ pool', Uses pool' gs' ∧ pool'.card = pool.card := by
  induction h with
  | none pool =>
    rw [prefix_nil.mp hpre]
    exact ⟨pool, .none pool, rfl⟩
  | grant h hm hmin ih =>
    rename_i pool gs g
    rcases prefix_concat_iff.mp hpre with rfl | hpre
    · exact ⟨_, .grant h hm hmin, rfl⟩
    · obtain ⟨pool', h', hcard⟩ := ih hpre
      exact ⟨pool', h', hcard.trans (Uses.card_eq hm _).symm⟩

/-- **NO MORE USES THAN SLOTS**, if they begin in order. -/
theorem Uses.begun_le (h : Uses pool gs) (hpre : gs' <+: gs) (hfree : ∀ g ∈ gs', g.free ≤ t) :
    gs'.countP (t < ·.release) ≤ pool.card := by
  obtain ⟨pool', h', hcard⟩ := h.of_prefix hpre
  exact (h'.countP_le hfree).trans ((Multiset.countP_le_card _ _).trans_eq hcard)

/-- If no use ends before its slot is free, slots are given out in order. -/
theorem Uses.pairwise (h : Uses pool gs) (hend : ∀ g ∈ gs, g.free ≤ g.release) :
    gs.Pairwise (·.free ≤ ·.free) ∧ ∀ g ∈ gs, ∀ x ∈ pool, g.free ≤ x := by
  induction h with
  | none pool => exact ⟨.nil, nofun⟩
  | grant h hm hmin ih =>
    rename_i pool gs g
    obtain ⟨hsorted, hpool⟩ := ih fun g' hg' => hend g' (mem_append_left _ hg')
    refine ⟨pairwise_append.mpr ⟨hsorted, pairwise_singleton _ _, ?_⟩, ?_⟩
    · intro g' hg' g₁ hg₁
      rw [mem_singleton.mp hg₁]
      exact hpool g' hg' _ hm
    · intro g' hg' x hx
      have hle : g'.free ≤ g.free := by
        rcases mem_append.mp hg' with hg' | hg'
        · exact hpool g' hg' _ hm
        · rw [mem_singleton.mp hg']
      refine hle.trans ?_
      rcases Multiset.mem_cons.mp hx with rfl | hx
      · exact hend g (by simp)
      · exact hmin x (Multiset.mem_of_mem_erase hx)

/-- What an order of `gs` and a bound pick out is a prefix. -/
theorem countP_le_takeWhile (h : gs.Pairwise (·.free ≤ ·.free)) :
    gs.countP (fun g => g.free ≤ t ∧ t < g.release)
      ≤ (gs.takeWhile (·.free ≤ t)).countP (t < ·.release) := by
  induction gs with
  | nil => exact Nat.le_refl _
  | cons g gs ih =>
    rw [pairwise_cons] at h
    by_cases hg : g.free ≤ t
    · rw [takeWhile_cons_of_pos (by simpa using hg), countP_cons, countP_cons]
      simp only [hg, true_and]
      exact Nat.add_le_add_right (ih h.2) _
    · -- nothing behind `g` begins by `t` either
      rw [countP_eq_zero.mpr]
      · exact Nat.zero_le _
      · intro g' hg'
        simp only [decide_eq_true_eq, not_and]
        intro hle
        rcases mem_cons.mp hg' with rfl | hg'
        · exact absurd hle hg
        · exact absurd ((h.1 g' hg').trans hle) hg

/-- **NO MORE USES THAN SLOTS**, if none ends before its slot is free. -/
theorem Uses.active_le (h : Uses pool gs) (hend : ∀ g ∈ gs, g.free ≤ g.release) :
    gs.countP (fun g => g.free ≤ t ∧ t < g.release) ≤ pool.card :=
  (countP_le_takeWhile (h.pairwise hend).1).trans
    (h.begun_le (List.takeWhile_prefix _) fun g hg => by simpa using mem_takeWhile_imp hg)

end Slots
