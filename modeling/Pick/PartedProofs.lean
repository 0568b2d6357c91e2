import Pick.ChainProofs

/-! # Chains that share their nodes

Several chains over the same links, one for each of the places `κ`, and some nodes
that are on no chain at the moment.  Each node is in exactly one place: it can be
taken from the front of a chain, and put in front of one or behind it. -/

namespace Chain

open Function List

variable {ι κ : Type} {next : ι → Option ι} {all : ι → Prop} {parts : κ → List ι}
  {loose l : List ι} {x : ι} {k : κ}

/-- Two chains with the same first node are the same. -/
theorem Linked.unique {l' : List ι} (h : Linked next l) (h' : Linked next l')
    (hhead : l.head? = l'.head?) : l = l' := by
  induction l generalizing l' with
  | nil =>
    cases l' with
    | nil => rfl
    | cons b l' => exact nomatch hhead
  | cons a l ih =>
    cases l' with
    | nil => exact nomatch hhead
    | cons b l' =>
      obtain rfl : a = b := Option.some.inj hhead
      rw [ih h.2 h'.2 (h.1.symm.trans h'.1)]

/-! ## One place for each node -/

/-- Each node of `all` is in exactly one of the `parts`, or `loose`. -/
structure Shared (all : ι → Prop) (parts : κ → List ι) (loose : List ι) : Prop where
  nodup : ∀ k, (parts k).Nodup
  disjoint : ∀ k k' x, x ∈ parts k → x ∈ parts k' → k = k'
  looseNodup : loose.Nodup
  apart : ∀ k x, x ∈ parts k → x ∉ loose
  cover : ∀ x, all x ↔ (∃ k, x ∈ parts k) ∨ x ∈ loose

variable [DecidableEq κ]

theorem mem_update_parts {k' : κ} :
    x ∈ update parts k l k' ↔ (k' = k ∧ x ∈ l) ∨ (k' ≠ k ∧ x ∈ parts k') := by
  by_cases hk : k' = k
  · subst hk
    rw [update_self]
    exact ⟨fun h => .inl ⟨rfl, h⟩, fun h => h.elim And.right fun h' => absurd rfl h'.1⟩
  · rw [update_of_ne hk]
    exact ⟨fun h => .inr ⟨hk, h⟩, fun h => h.elim (fun h' => absurd h'.1 hk) And.right⟩

theorem forall_update_parts {P : List ι → Prop} (hl : P l)
    (hparts : ∀ k', k' ≠ k → P (parts k')) (k' : κ) : P (update parts k l k') :=
  (forall_update_iff parts fun _ l => P l).mpr ⟨hl, hparts⟩ k'

omit [DecidableEq κ] in
/-- A node that is in one part, or loose and not in it: the rest is the same. -/
theorem shared_move {parts' : κ → List ι} (hk : (parts k).Perm (x :: parts' k))
    (hother : ∀ k', k' ≠ k → parts k' = parts' k') :
    Shared all parts loose ↔ Shared all parts' (x :: loose) := by
  have hmem : ∀ {k' y}, y ∈ parts k' ↔ (k' = k ∧ y = x) ∨ y ∈ parts' k' := by
    intro k' y
    by_cases hk' : k' = k
    · rw [hk', hk.mem_iff, mem_cons, and_iff_right rfl]
    · rw [hother k' hk', or_iff_right fun hy => hk' hy.1]
  have hcover : ∀ y, (∃ k', y ∈ parts k') ∨ y ∈ loose ↔ (∃ k', y ∈ parts' k') ∨ y ∈ x :: loose := by
    intro y
    simp only [hmem, exists_or, exists_eq_left, mem_cons]
    rw [or_comm (a := y = x), or_assoc]
  have hxk : x ∈ parts k := hmem.mpr (.inl ⟨rfl, rfl⟩)
  constructor
  · intro h
    have hnew : ∀ k', x ∉ parts' k' := by
      intro k' hx
      obtain rfl : k' = k := h.disjoint _ _ x (hmem.mpr (.inr hx)) hxk
      exact (nodup_cons.mp (hk.nodup_iff.mp (h.nodup k'))).1 hx
    refine ⟨fun k' => ?_, fun k₁ k₂ y h₁ h₂ =>
      h.disjoint _ _ y (hmem.mpr (.inr h₁)) (hmem.mpr (.inr h₂)),
      nodup_cons.mpr ⟨h.apart k x hxk, h.looseNodup⟩, fun k' y hy hloose => ?_,
      fun y => (h.cover y).trans (hcover y)⟩
    · by_cases hk' : k' = k
      · rw [hk']
        exact (nodup_cons.mp (hk.nodup_iff.mp (h.nodup k))).2
      · exact hother k' hk' ▸ h.nodup k'
    · rcases mem_cons.mp hloose with rfl | hloose
      · exact hnew k' hy
      · exact h.apart k' y (hmem.mpr (.inr hy)) hloose
  · intro h
    obtain ⟨hx, hloose⟩ := nodup_cons.mp h.looseNodup
    have hnew : ∀ k', x ∉ parts' k' := fun k' hk' => h.apart k' x hk' mem_cons_self
    refine ⟨fun k' => ?_, fun k₁ k₂ y h₁ h₂ => ?_, hloose, fun k' y hy hy' => ?_,
      fun y => (h.cover y).trans (hcover y).symm⟩
    · by_cases hk' : k' = k
      · rw [hk']
        exact hk.nodup_iff.mpr (nodup_cons.mpr ⟨hnew k, h.nodup k⟩)
      · exact hother k' hk' ▸ h.nodup k'
    · rcases hmem.mp h₁ with ⟨hk₁, rfl⟩ | hp₁
      · rcases hmem.mp h₂ with ⟨hk₂, -⟩ | hp₂
        · rw [hk₁, hk₂]
        · exact absurd hp₂ (hnew k₂)
      · rcases hmem.mp h₂ with ⟨-, rfl⟩ | hp₂
        · exact absurd hp₁ (hnew k₁)
        · exact h.disjoint _ _ y hp₁ hp₂
    · rcases hmem.mp hy with ⟨-, rfl⟩ | hp
      · exact hx hy'
      · exact h.apart _ y hp (mem_cons_of_mem _ hy')

/-- A node is taken from a part. -/
theorem Shared.take (h : Shared all parts loose) (hk : parts k = x :: l) :
    Shared all (update parts k l) (x :: loose) := by
  refine (shared_move ?_ fun k' hk' => (update_of_ne hk' l parts).symm).mp h
  rw [hk, update_self]

/-- A loose node is put into a part. -/
theorem Shared.put (h : Shared all parts (x :: loose)) (hl : l.Perm (x :: parts k)) :
    Shared all (update parts k l) loose := by
  refine (shared_move ?_ fun k' hk' => update_of_ne hk' l parts).mpr h
  rwa [update_self]

/-- All nodes are in one part. -/
theorem shared_single (hl : l.Nodup) : Shared (· ∈ l) (update (fun _ => []) k l) [] := by
  have hother : ∀ {k' y}, y ∈ update (fun _ : κ => ([] : List ι)) k l k' →
      k' = k ∧ y ∈ l := by
    intro k' y hy
    rcases mem_update_parts.mp hy with hl' | ⟨-, hnil⟩
    · exact hl'
    · cases hnil
  refine ⟨?_, fun k₁ k₂ y h₁ h₂ => (hother h₁).1.trans (hother h₂).1.symm,
    nodup_nil, fun _ _ _ => not_mem_nil, fun y => ?_⟩
  · exact forall_update_parts hl fun _ _ => nodup_nil
  · constructor
    · exact fun hy => .inl ⟨k, mem_update_parts.mpr (.inl ⟨rfl, hy⟩)⟩
    · rintro (⟨k', hy⟩ | hy)
      · exact (hother hy).2
      · cases hy

/-! ## With the links -/

/-- The parts are chains. -/
structure Parted (next : ι → Option ι) (all : ι → Prop) (parts : κ → List ι)
    (loose : List ι) : Prop extends Shared all parts loose where
  linked : ∀ k, Linked next (parts k)

theorem Parted.take (h : Parted next all parts loose) (hk : parts k = x :: l) :
    Parted next all (update parts k l) (x :: loose) := by
  have hlinked := h.linked k
  rw [hk] at hlinked
  exact ⟨h.toShared.take hk, forall_update_parts hlinked.2 fun k' _ => h.linked k'⟩

variable [DecidableEq ι]

omit [DecidableEq κ] in
/-- A write to a loose node, or to a node of one chain, changes no other chain. -/
theorem Shared.linked_frame (h : Shared all parts (x :: loose)) {a : ι} {v : Option ι}
    {k' : κ} (ha : a = x ∨ a ∈ parts k) (hne : k' ≠ k) (hl : Linked next (parts k')) :
    Linked (update next a v) (parts k') := by
  refine hl.congr fun y hy => update_of_ne ?_ _ _
  rintro rfl
  rcases ha with rfl | ha
  · exact h.apart k' _ hy mem_cons_self
  · exact hne (h.disjoint _ _ _ hy ha)

/-- A loose node is put in front of a chain. -/
theorem Parted.putFront (h : Parted next all parts (x :: loose)) (k : κ) :
    Parted (update next x (parts k).head?) all
      (update parts k (x :: parts k)) loose := by
  refine ⟨h.toShared.put (Perm.refl _), forall_update_parts ?_ fun k' hk' => ?_⟩
  · exact (h.linked k).cons fun hx => h.apart k x hx mem_cons_self
  · exact h.toShared.linked_frame (.inl rfl) hk' (h.linked k')

/-- The links with `x` behind a chain that ends with `last`. -/
def linkBehind (next : ι → Option ι) (last : Option ι) (x : ι) : ι → Option ι :=
  match last with
  | none => update next x none
  | some a => update (update next x none) a (some x)

theorem Linked.snoc (h : Linked next l) (hnodup : l.Nodup) (hx : x ∉ l) :
    Linked (linkBehind next l.getLast? x) (l ++ [x]) := by
  rcases eq_nil_or_concat' l with rfl | ⟨l, a, rfl⟩
  · exact ⟨update_self .., trivial⟩
  · rw [getLast?_append, getLast?_singleton, append_assoc]
    exact h.link hnodup hx

/-- A loose node is put behind a chain. -/
theorem Parted.putBack (h : Parted next all parts (x :: loose)) (k : κ) :
    Parted (linkBehind next (parts k).getLast? x) all
      (update parts k (parts k ++ [x])) loose := by
  refine ⟨h.toShared.put (perm_append_singleton _ _), forall_update_parts ?_ fun k' hk' => ?_⟩
  · exact (h.linked k).snoc (h.nodup k) fun hx => h.apart k x hx mem_cons_self
  · have hframe := h.toShared.linked_frame (v := none) (k := k) (.inl rfl) hk' (h.linked k')
    cases hlast : (parts k).getLast? with
    | none => exact hframe
    | some a => exact h.toShared.linked_frame (.inr (mem_of_getLast? hlast)) hk' hframe

end Chain
