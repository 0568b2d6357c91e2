import Mathlib

/-! # The lowest value of a list

The lowest value of a list below a bound, and how it changes when a value is
appended or left out. -/

namespace Lowest

open List

variable {α : Type} [LinearOrder α] {never t : α} {ts : List α}

/-- The lowest value of a list, or `never` if none is below it. -/
def lowest (never : α) (ts : List α) : α := ts.foldr min never

@[simp] theorem lowest_nil : lowest never [] = never := rfl

@[simp] theorem lowest_cons : lowest never (t :: ts) = min t (lowest never ts) := rfl

theorem lowest_le_never (ts : List α) : lowest never ts ≤ never := by
  induction ts with
  | nil => exact le_rfl
  | cons t ts ih => exact (min_le_right _ _).trans ih

theorem lowest_le_of_mem (ht : t ∈ ts) : lowest never ts ≤ t := by
  induction ts with
  | nil => exact nomatch ht
  | cons u ts ih =>
    rcases mem_cons.mp ht with rfl | hmem
    · exact min_le_left _ _
    · exact (min_le_right _ _).trans (ih hmem)

theorem le_lowest {b : α} (hnever : b ≤ never) (hts : ∀ t ∈ ts, b ≤ t) : b ≤ lowest never ts := by
  induction ts with
  | nil => exact hnever
  | cons t ts ih =>
    rw [forall_mem_cons] at hts
    exact le_min hts.1 (ih hts.2)

theorem lowest_append_singleton (ts : List α) (t : α) :
    lowest never (ts ++ [t]) = min (lowest never ts) t := by
  refine le_antisymm ?_ ?_
  · refine le_min (le_lowest (lowest_le_never _) fun u hu => ?_) ?_
    · exact lowest_le_of_mem (mem_append_left _ hu)
    · exact lowest_le_of_mem (mem_append_right _ (mem_singleton_self t))
  · refine le_lowest ((min_le_left _ _).trans (lowest_le_never ts)) fun u hu => ?_
    rcases mem_append.mp hu with hmem | hlast
    · exact (min_le_left _ _).trans (lowest_le_of_mem hmem)
    · rw [mem_singleton.mp hlast]
      exact min_le_right _ _

theorem lowest_le_lowest_eraseIdx (ts : List α) (i : ℕ) :
    lowest never ts ≤ lowest never (ts.eraseIdx i) :=
  le_lowest (lowest_le_never ts) fun _ hu => lowest_le_of_mem (mem_of_mem_eraseIdx hu)

/-- A lowest value below the bound is one of the list's. -/
theorem lowest_mem (h : lowest never ts < never) : lowest never ts ∈ ts := by
  induction ts with
  | nil => exact absurd h (lt_irrefl _)
  | cons t ts ih =>
    rw [lowest_cons] at h ⊢
    rcases le_total t (lowest never ts) with hle | hle
    · rw [min_eq_left hle]
      exact mem_cons_self
    · rw [min_eq_right hle] at h ⊢
      exact mem_cons_of_mem t (ih h)

theorem lowest_lt_of_mem (ht : t ∈ ts) (hlt : t < never) : lowest never ts < never :=
  (lowest_le_of_mem ht).trans_lt hlt

theorem isLeast_lowest (h : lowest never ts < never) : IsLeast {t | t ∈ ts} (lowest never ts) :=
  ⟨lowest_mem h, fun _ ht => lowest_le_of_mem ht⟩

end Lowest

/-! # Alarms

Waketimes, and one time that is to be at most all of them, so that whoever waits
until then oversleeps none.  A write lowers it; it is raised only by one who then
looks at every waketime again. -/

structure Alarms (ι T : Type*) where
  waketime : ι → T
  nextTimer : T

namespace Alarms

variable {ι T : Type*} [LinearOrder T] {a : Alarms ι T} {P Q : ι → Prop}

/-- The next time is at most `t`. -/
def lower (a : Alarms ι T) (t : T) : Alarms ι T := { a with nextTimer := min a.nextTimer t }

/-- The time is at most the waketimes of these. -/
def Covers (a : Alarms ι T) (P : ι → Prop) : Prop := ∀ x, P x → a.nextTimer ≤ a.waketime x

theorem Covers.mono (h : a.Covers P) (hsub : ∀ x, Q x → P x) : a.Covers Q :=
  fun x hx => h x (hsub x hx)

variable [DecidableEq ι]

/-- A new wake time. -/
def update (a : Alarms ι T) (x : ι) (t : T) : Alarms ι T :=
  { a with waketime := Function.update a.waketime x t }.lower t

/-- What is written is covered too. -/
theorem Covers.update (h : a.Covers P) (x : ι) (t : T) :
    (a.update x t).Covers fun y => P y ∨ y = x := by
  intro y hy
  show min a.nextTimer t ≤ Function.update a.waketime x t y
  by_cases heq : y = x
  · subst heq
    rw [Function.update_self]
    exact min_le_right _ _
  · rw [Function.update_of_ne heq]
    exact (min_le_left _ _).trans (h y (hy.resolve_right heq))

/-- And what is looked at. -/
theorem Covers.lower (h : a.Covers P) (x : ι) :
    (a.lower (a.waketime x)).Covers fun y => P y ∨ y = x := by
  have hupdate := h.update x (a.waketime x)
  rwa [Alarms.update, Function.update_eq_self] at hupdate

end Alarms
