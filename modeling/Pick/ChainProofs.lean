import Mathlib

/-! # Chains of links

A list kept by links: each node has the next one, and the last has none.
`Linked` says that a list is what one finds along the links, with rules for
the three writes that change a chain and for the search along it. -/

namespace Chain

open Function List

variable {ι : Type} {next next' : ι → Option ι} {a d t : ι} {l r : List ι}

/-- The list is what follows along the links, up to the last. -/
def Linked (next : ι → Option ι) : List ι → Prop
  | [] => True
  | a :: l => next a = l.head? ∧ Linked next l

theorem Linked.congr (h : Linked next l) (heq : ∀ a ∈ l, next' a = next a) : Linked next' l := by
  induction l with
  | nil => exact trivial
  | cons a l ih =>
    refine ⟨?_, ih h.2 fun b hb => heq b (mem_cons_of_mem _ hb)⟩
    rw [heq a mem_cons_self, h.1]

theorem Linked.right (h : Linked next (l ++ r)) : Linked next r := by
  induction l with
  | nil => exact h
  | cons b l ih => exact ih h.2

section Writes

variable [DecidableEq ι]

/-- A write at a node that is not in a list leaves the values of its nodes. -/
theorem update_of_not_mem {α : Type} {f : ι → α} {v : α} (ht : t ∉ l) :
    ∀ b ∈ l, update f t v b = f b :=
  fun _ hb => update_of_ne (ne_of_mem_of_not_mem hb ht) _ _

/-- A new node in front. -/
theorem Linked.cons (h : Linked next l) (ht : t ∉ l) :
    Linked (update next t l.head?) (t :: l) :=
  ⟨update_self .., h.congr (update_of_not_mem ht)⟩

/-- A new node behind `a`. -/
theorem Linked.link (h : Linked next (l ++ a :: r))
    (hnodup : (l ++ a :: r).Nodup) (ht : t ∉ l ++ a :: r) :
    Linked (update (update next t r.head?) a (some t)) (l ++ a :: t :: r) := by
  have hat : t ≠ a := by
    rintro rfl
    exact ht (mem_append_right _ mem_cons_self)
  induction l with
  | nil =>
    rw [nil_append] at h hnodup ht ⊢
    refine ⟨update_self .., ?_⟩
    have htail : Linked (update next t r.head?) (t :: r) :=
      h.2.cons fun hr => ht (mem_cons_of_mem _ hr)
    exact htail.congr (update_of_not_mem
      (not_mem_cons_of_ne_of_not_mem hat.symm (nodup_cons.mp hnodup).1))
  | cons b l ih =>
    obtain ⟨hb, hnodup⟩ := nodup_cons.mp hnodup
    refine ⟨?_, ih h.2 hnodup fun hmem => ht (mem_cons_of_mem _ hmem)⟩
    have hba : b ≠ a := by
      rintro rfl
      exact hb (mem_append_right _ mem_cons_self)
    have hbt : b ≠ t := by
      rintro rfl
      exact ht mem_cons_self
    rw [update_of_ne hba, update_of_ne hbt]
    refine h.1.trans ?_
    cases l <;> rfl

/-- The node behind `a` is taken out. -/
theorem Linked.unlink (h : Linked next (l ++ a :: d :: r)) (hnodup : (l ++ a :: d :: r).Nodup) :
    Linked (update next a (next d)) (l ++ a :: r) := by
  induction l with
  | nil =>
    refine ⟨?_, ?_⟩
    · rw [update_self]
      exact h.2.1
    · exact h.2.2.congr (update_of_not_mem fun hr =>
        (nodup_cons.mp hnodup).1 (mem_cons_of_mem _ hr))
  | cons b l ih =>
    obtain ⟨hb, hnodup⟩ := nodup_cons.mp hnodup
    refine ⟨?_, ih h.2 hnodup⟩
    have hba : b ≠ a := by
      rintro rfl
      exact hb (mem_append_right _ mem_cons_self)
    rw [update_of_ne hba]
    refine h.1.trans ?_
    cases l <;> rfl

end Writes

/-! ## Searching -/

/-- Follow the links from `prev` to the first node with `p`, and give it with the node before it;
    `some none` is the end of the chain.  `fuel` bounds the search. -/
def find (next : ι → Option ι) (p : ι → Bool) :
    Nat → ι → Option (Option (ι × ι))
  | 0, _ => none
  | fuel + 1, prev =>
    match next prev with
    | none => some none
    | some pos => if p pos then some (some (prev, pos)) else find next p fuel pos

/-- A search that finds something finds the first such node behind its start. -/
theorem find_of_mem {p : ι → Bool} {fuel : Nat} (h : Linked next (a :: l))
    (hfuel : l.length < fuel) (hp : ∃ b ∈ l, p b) :
    ∃ pre prev pos post, a :: l = pre ++ prev :: pos :: post ∧
      (∀ b ∈ (pre ++ [prev]).tail, ¬ p b) ∧ p pos ∧
      find next p fuel a = some (some (prev, pos)) := by
  fun_induction find next p fuel a generalizing l with
  | case1 => exact absurd hfuel (Nat.not_lt_zero _)
  | case2 fuel a hnext =>
    obtain ⟨b, hb, -⟩ := hp
    rw [head?_eq_none_iff.mp (h.1.symm.trans hnext)] at hb
    cases hb
  | case3 fuel a b hnext hb =>
    obtain ⟨l, rfl⟩ := head?_eq_some_iff.mp (h.1.symm.trans hnext)
    exact ⟨[], a, b, l, rfl, nofun, hb, rfl⟩
  | case4 fuel a b hnext hb ih =>
    obtain ⟨l, rfl⟩ := head?_eq_some_iff.mp (h.1.symm.trans hnext)
    have hp' : ∃ c ∈ l, p c = true := by
      obtain ⟨c, hc, hpc⟩ := hp
      rcases mem_cons.mp hc with rfl | hc
      · exact absurd hpc hb
      · exact ⟨c, hc, hpc⟩
    obtain ⟨pre, prev, pos, post, hl, hpre, hpos, hfind⟩ :=
      ih h.2 (Nat.lt_of_succ_lt_succ hfuel) hp'
    refine ⟨a :: pre, prev, pos, post, by rw [hl]; rfl, ?_, hpos, hfind⟩
    show ∀ c ∈ pre ++ [prev], ¬ p c
    cases pre with
    | nil =>
      cases hl
      exact forall_mem_singleton.mpr hb
    | cons x pre =>
      cases hl
      exact forall_mem_cons.mpr ⟨hb, hpre⟩

/-- A search for what is not there comes to the end. -/
theorem find_of_not_mem {p : ι → Bool} {fuel : Nat} (h : Linked next (a :: l))
    (hfuel : l.length < fuel) (hp : ∀ b ∈ l, ¬ p b) : find next p fuel a = some none := by
  fun_induction find next p fuel a generalizing l with
  | case1 => exact absurd hfuel (Nat.not_lt_zero _)
  | case2 => rfl
  | case3 fuel a b hnext hb => exact absurd hb (hp b (mem_of_head? (h.1.symm.trans hnext)))
  | case4 fuel a b hnext hb ih =>
    obtain ⟨l, rfl⟩ := head?_eq_some_iff.mp (h.1.symm.trans hnext)
    exact ih h.2 (Nat.lt_of_succ_lt_succ hfuel) fun c hc => hp c (mem_cons_of_mem _ hc)

end Chain
