import Mathlib

/-! # Spans of time in a list

Elements that each last from `lo` to `hi`.  In a queue each one starts where the one
before it ends; in a history, kept newest first, no two overlap. -/

namespace Span

open List

variable {α K : Type} [LinearOrder K] {lo hi : α → K} {l r : List α} {a : α}

/-- Each element starts where the one before it ends. -/
def Abut (lo hi : α → K) (l : List α) : Prop := l.IsChain fun a b => hi a = lo b

/-- Each element ends before any later one starts. -/
def Apart (lo hi : α → K) (l : List α) : Prop := l.Pairwise fun a b => hi a ≤ lo b

/-- Each element starts after any later one has ended. -/
def NewestFirst (lo hi : α → K) (l : List α) : Prop := l.Pairwise fun a b => hi b ≤ lo a

theorem Abut.apart (h : Abut lo hi l) (hle : ∀ a ∈ l, lo a ≤ hi a) : Apart lo hi l := by
  induction l with
  | nil => exact Pairwise.nil
  | cons a l ih =>
    have hl := ih (isChain_of_isChain_cons h) fun b hb => hle b (mem_cons_of_mem _ hb)
    refine pairwise_cons.mpr ⟨?_, hl⟩
    intro b hb
    cases l with
    | nil => exact nomatch hb
    | cons c l =>
      -- the next element starts where `a` ends, and every later one after it
      have hc : hi a = lo c := (isChain_cons_cons.mp h).1
      rcases mem_cons.mp hb with rfl | hb
      · exact hc.le
      · calc hi a = lo c := hc
          _ ≤ hi c := hle c (mem_cons_of_mem _ mem_cons_self)
          _ ≤ lo b := (pairwise_cons.mp hl).1 b hb

/-- A time between the start of the first element and the start of what follows lies in
    one of the elements. -/
theorem Abut.exists_mem {b : α} {t : K} (h : Abut lo hi (l ++ b :: r))
    (hfirst : ∃ a ∈ l.head?, lo a < t) (hle : t ≤ lo b) : ∃ a ∈ l, lo a < t ∧ t ≤ hi a := by
  induction l with
  | nil =>
    obtain ⟨a, ha, -⟩ := hfirst
    cases ha
  | cons a l ih =>
    obtain ⟨a', ha', hlt⟩ := hfirst
    cases ha'
    by_cases hend : t ≤ hi a
    · exact ⟨a, mem_cons_self, hlt, hend⟩
    · -- the next element starts before `t`
      obtain ⟨hnext, hchain⟩ := isChain_cons.mp h
      cases l with
      | nil => exact absurd (hnext b rfl ▸ hle) hend
      | cons c l =>
        have hc : lo c < t := by
          rw [← hnext c rfl]
          exact not_le.mp hend
        obtain ⟨x, hx, hin⟩ := ih hchain ⟨c, rfl, hc⟩
        exact ⟨x, mem_cons_of_mem _ hx, hin⟩

theorem Apart.newestFirst (h : Apart lo hi l) : NewestFirst lo hi l.reverse :=
  pairwise_reverse.mpr h

theorem NewestFirst.sublist (h : NewestFirst lo hi r) (hsub : l.Sublist r) : NewestFirst lo hi l :=
  Pairwise.sublist hsub h

/-- Whether an element lasts beyond `start`. -/
def lasts (hi : α → K) (start : K) (a : α) : Bool := decide (start < hi a)

/-- A scan for what lasts beyond `start` may stop at the first element that does not:
    all older ones have ended before. -/
theorem NewestFirst.filter_takeWhile (h : NewestFirst lo hi l)
    (hle : ∀ a ∈ l, lo a ≤ hi a) (start : K) (q : α → Bool) :
    (l.takeWhile (lasts hi start)).filter q = l.filter fun a => lasts hi start a && q a := by
  induction l with
  | nil => rfl
  | cons a l ih =>
    obtain ⟨ha, hl⟩ := pairwise_cons.mp h
    by_cases hstart : start < hi a
    · have hlasts : lasts hi start a = true := decide_eq_true hstart
      have hrest := ih hl fun b hb => hle b (mem_cons_of_mem _ hb)
      rw [takeWhile_cons_of_pos hlasts, filter_cons, filter_cons, hrest, hlasts, Bool.true_and]
    · have hends : ∀ b ∈ a :: l, lasts hi start b = false := by
        intro b hb
        refine decide_eq_false (not_lt.mpr ?_)
        rcases mem_cons.mp hb with rfl | hb
        · exact not_lt.mp hstart
        · calc hi b ≤ lo a := ha b hb
            _ ≤ hi a := hle a mem_cons_self
            _ ≤ start := not_lt.mp hstart
      rw [takeWhile_cons_of_neg (Bool.not_eq_true _ ▸ hends a mem_cons_self)]
      refine (filter_eq_nil_iff.mpr ?_).symm
      intro b hb
      rw [hends b hb, Bool.false_and]
      exact Bool.false_ne_true

end Span
