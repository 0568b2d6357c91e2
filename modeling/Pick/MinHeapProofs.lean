import Mathlib

/-! # Binary heaps in lists

A list in heap order: no element is smaller than its parent.  Positions
behind the end read as the top element.  An element is replaced by moving a
*hole* down: `Hole` is what holds while it moves, with one rule for a move
(`Hole.down`) and one for the end (`Hole.fill`). -/

namespace MinHeap

open List

variable {α : Type} [LinearOrder α] [OrderTop α] {mc : List α} {x : α}
  {pos c : Nat}

/-- The element at a position. -/
def elem (mc : List α) (i : Nat) : α := mc.getD i ⊤

/-- The place above `i`. -/
def parent (i : Nat) : Nat := (i - 1) / 2

/-- No element is smaller than its parent. -/
def IsHeap (mc : List α) : Prop := ∀ i, 0 < i → elem mc (parent i) ≤ elem mc i

theorem elem_of_le (h : mc.length ≤ pos) : elem mc pos = ⊤ := getD_eq_default _ _ h

theorem elem_of_lt (h : pos < mc.length) : elem mc pos = mc[pos] := getD_eq_getElem _ _ h

theorem elem_set_self (h : pos < mc.length) : elem (mc.set pos x) pos = x := by
  rw [elem_of_lt (by rwa [length_set]), getElem_set_self]

theorem elem_set_of_ne {i : Nat} (h : i ≠ pos) : elem (mc.set pos x) i = elem mc i := by
  rw [elem, elem, getD_eq_getElem?_getD, getD_eq_getElem?_getD,
    getElem?_set_ne h.symm]

theorem isHeap_of_lt (h : ∀ i < mc.length, elem mc (parent i) ≤ elem mc i) : IsHeap mc := by
  intro i _
  by_cases hlt : i < mc.length
  · exact h i hlt
  · rw [elem_of_le (Nat.le_of_not_lt hlt)]
    exact le_top

/-- The first element of a heap is the smallest. -/
theorem IsHeap.root_le (h : IsHeap mc) (hx : x ∈ mc) : elem mc 0 ≤ x := by
  obtain ⟨i, hi, rfl⟩ := mem_iff_getElem.mp hx
  rw [← elem_of_lt hi]
  clear hi hx
  induction i using Nat.strongRecOn with
  | ind i ih =>
    by_cases hzero : i = 0
    · rw [hzero]
    · have hparent : parent i < i := by
        rw [parent]
        omega
      exact (ih _ hparent).trans (h i (Nat.pos_of_ne_zero hzero))

/-! ## Moving a hole -/

/-- The heap order around a hole at `pos` that is to take `x`: the pairs off the hole are in order,
    and what is below the hole and `x` itself are not smaller than its parent. -/
structure Hole (mc : List α) (pos : Nat) (x : α) : Prop where
  lt : pos < mc.length
  off : ∀ i, 0 < i → i ≠ pos → parent i ≠ pos → elem mc (parent i) ≤ elem mc i
  grand : 0 < pos → ∀ i, 0 < i → parent i = pos → elem mc (parent pos) ≤ elem mc i
  above : 0 < pos → elem mc (parent pos) ≤ x

/-- The root of a heap may be replaced. -/
theorem IsHeap.hole (h : IsHeap mc) (hne : mc ≠ []) (x : α) : Hole mc 0 x where
  lt := length_pos_of_ne_nil hne
  off i hi _ _ := h i hi
  grand hpos := absurd hpos (lt_irrefl 0)
  above hpos := absurd hpos (lt_irrefl 0)

theorem parent_eq_iff {i : Nat} (hi : 0 < i) :
    parent i = pos ↔ i = 2 * pos + 1 ∨ i = 2 * pos + 2 := by
  rw [parent]
  omega

/-- What is not smaller than the parent of the hole nor larger than its children fills it. -/
theorem Hole.set (h : Hole mc pos x) (habove : 0 < pos → elem mc (parent pos) ≤ y)
    (h₁ : y ≤ elem mc (2 * pos + 1)) (h₂ : y ≤ elem mc (2 * pos + 2)) : IsHeap (mc.set pos y) := by
  intro i hi
  by_cases hpos : i = pos
  · subst hpos
    have hne : parent i ≠ i := by
      rw [parent]
      omega
    rw [elem_set_self h.lt, elem_set_of_ne hne]
    exact habove hi
  · rw [elem_set_of_ne hpos]
    by_cases hparent : parent i = pos
    · rw [hparent, elem_set_self h.lt]
      rcases (parent_eq_iff hi).mp hparent with rfl | rfl
      · exact h₁
      · exact h₂
    · rw [elem_set_of_ne hparent]
      exact h.off i hi hpos hparent

/-- Filling the hole with something not larger than its children. -/
theorem Hole.fill (h : Hole mc pos x) (h₁ : x ≤ elem mc (2 * pos + 1))
    (h₂ : x ≤ elem mc (2 * pos + 2)) : IsHeap (mc.set pos x) :=
  h.set h.above h₁ h₂

/-- Moving the hole to its smallest child, if that is smaller than `x`.  It does not
    change what the list will hold. -/
theorem Hole.down (h : Hole mc pos x) (hchild : c = 2 * pos + 1 ∨ c = 2 * pos + 2)
    (hlt : elem mc c < x) (hleft : elem mc c ≤ elem mc (2 * pos + 1))
    (hright : elem mc c ≤ elem mc (2 * pos + 2)) :
    Hole (mc.set pos (elem mc c)) c x ∧ ((mc.set pos (elem mc c)).set c x).Perm (mc.set pos x) := by
  have hpc : pos < c := by omega
  have hc := Nat.zero_lt_of_lt hpc
  have hparent := (parent_eq_iff hc).mpr hchild
  have hclt : c < mc.length := by
    by_contra hge
    rw [elem_of_le (Nat.le_of_not_lt hge)] at hlt
    exact not_top_lt hlt
  refine ⟨⟨?_, ?_, ?_, ?_⟩, ?_⟩
  · rwa [length_set]
  · -- what moves up is not smaller than the parent of the hole
    have hheap := h.set (fun hpos => h.grand hpos c hc hparent) hleft hright
    exact fun i hi _ _ => hheap i hi
  · intro _ i hi hic
    have hne : i ≠ pos := by
      rw [parent_eq_iff hi] at hic
      omega
    rw [hparent, elem_set_self h.lt, elem_set_of_ne hne, ← hic]
    refine h.off i hi hne ?_
    rw [hic]
    exact Nat.ne_of_gt hpc
  · intro _
    rw [hparent, elem_set_self h.lt]
    exact hlt.le
  · have hpos' : pos < (mc.set pos x).length := by
      rw [length_set]
      exact h.lt
    have hc' : c < (mc.set pos x).length := by rwa [length_set]
    have hswap := set_set_perm hpos' hc'
    rwa [getElem_set_self, getElem_set_ne (Nat.ne_of_lt hpc), set_set,
      ← elem_of_lt hclt] at hswap

end MinHeap
