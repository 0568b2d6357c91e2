import Mathlib

/-! # Heaps of mutable lists

A heap holds lists by reference, so two names can hold the same list and
see each other's writes.  New lists are put behind the old ones and no
reference is ever reused. -/

namespace ListHeap

open List

variable {K : Type}

/-- The identity of a list. -/
abbrev Ref := Nat
/-- The lists by identity. -/
abbrev Heap (K : Type) := List (List K)

/-- The list at a reference. -/
def deref (h : Heap K) (r : Ref) : List K := h.getD r []

/-- Put a new list on the heap; its reference is `h.length`. -/
def alloc (h : Heap K) (xs : List K) : Heap K := h ++ [xs]

/-- Write one item of a list in place. -/
def setItem (h : Heap K) (r : Ref) (i : Nat) (v : K) : Heap K := h.set r ((deref h r).set i v)

@[simp] theorem length_alloc (h : Heap K) (xs : List K) : (alloc h xs).length = h.length + 1 := by
  rw [alloc, length_append, length_singleton]

variable {h : Heap K} {r : Ref}

theorem deref_alloc_of_lt (hr : r < h.length) (xs : List K) : deref (alloc h xs) r = deref h r := by
  rw [deref, deref, alloc, getD_append _ _ _ _ hr]

@[simp] theorem deref_alloc_self (h : Heap K) (xs : List K) : deref (alloc h xs) h.length = xs := by
  rw [deref, alloc, getD_append_right _ _ _ _ (le_refl _), Nat.sub_self]
  rfl

theorem deref_set_self (hr : r < h.length) (xs : List K) : deref (h.set r xs) r = xs := by
  rw [deref, getD_eq_getElem?_getD, getElem?_set_self hr]
  rfl

theorem deref_set_ne {s : Ref} (hrs : r ≠ s) (h : Heap K) (xs : List K) :
    deref (h.set r xs) s = deref h s := by
  rw [deref, deref, getD_eq_getElem?_getD, getD_eq_getElem?_getD,
    getElem?_set_ne hrs]

theorem deref_setItem_self (hr : r < h.length)
    (i : Nat) (v : K) : deref (setItem h r i v) r = (deref h r).set i v :=
  deref_set_self hr _

theorem deref_setItem_ne {s : Ref} (hrs : r ≠ s) (h : Heap K) (i : Nat)
    (v : K) : deref (setItem h r i v) s = deref h s :=
  deref_set_ne hrs h _

/-- The other items of a list stay. -/
theorem getElem?_deref_setItem (h : Heap K) (r : Ref) {i j : Nat} (v : K)
    (hij : i ≠ j) : (deref (setItem h r i v) r)[j]? = (deref h r)[j]? := by
  by_cases hr : r < h.length
  · rw [deref_setItem_self hr, getElem?_set_ne hij]
  · rw [setItem, set_eq_of_length_le (Nat.le_of_not_lt hr)]

/-! ## Growing heaps -/

/-- Every list of `h` is in `h'`, with the same length. -/
def Extends (h h' : Heap K) : Prop :=
  h.length ≤ h'.length ∧ ∀ r < h.length, (deref h' r).length = (deref h r).length

theorem Extends.trans {h' h'' : Heap K} (h₁ : Extends h h')
    (h₂ : Extends h' h'') : Extends h h'' := by
  refine ⟨le_trans h₁.1 h₂.1, fun r hr => ?_⟩
  rw [h₂.2 r (lt_of_lt_of_le hr h₁.1), h₁.2 r hr]

theorem extends_alloc (h : Heap K) (xs : List K) : Extends h (alloc h xs) := by
  refine ⟨?_, fun r hr => ?_⟩
  · rw [length_alloc]
    exact Nat.le_succ _
  · rw [deref_alloc_of_lt hr]

/-- Replacing a list by one of the same length. -/
theorem extends_set {xs : List K}
    (hxs : xs.length = (deref h r).length) : Extends h (h.set r xs) := by
  refine ⟨?_, fun s hs => ?_⟩
  · exact Nat.le_of_eq length_set.symm
  · by_cases hrs : r = s
    · subst hrs
      rw [deref_set_self hs, hxs]
    · rw [deref_set_ne hrs]

theorem extends_setItem (h : Heap K) (r : Ref) (i : Nat) (v : K) : Extends h (setItem h r i v) :=
  extends_set (length_set ..)

/-- A list on the heap, of length `n`. -/
def HasLength (h : Heap K) (n : Nat) (r : Ref) : Prop := r < h.length ∧ (deref h r).length = n

theorem HasLength.of_extends {h' : Heap K} {n : Nat}
    (hr : HasLength h n r) (hx : Extends h h') : HasLength h' n r :=
  ⟨lt_of_lt_of_le hr.1 hx.1, (hx.2 r hr.1).trans hr.2⟩

theorem hasLength_alloc {xs : List K} {n : Nat}
    (hxs : xs.length = n) : HasLength (alloc h xs) n h.length := by
  refine ⟨?_, ?_⟩
  · rw [length_alloc]
    exact Nat.lt_succ_self _
  · rw [deref_alloc_self, hxs]

end ListHeap
