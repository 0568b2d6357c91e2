import Mathlib

/-! # Insertion-ordered dictionaries

A dictionary is the list of its entries in insertion order.  Setting a key
that is present replaces its value in place; setting a new key appends. -/

namespace Dict

open List

variable {α β : Type} [DecidableEq α]

/-- The value of a key. -/
def get : List (α × β) → α → Option β
  | [], _ => none
  | (k', v) :: d, k => if k' = k then some v else get d k

/-- Set the value of a key. -/
def set : List (α × β) → α → β → List (α × β)
  | [], k, v => [(k, v)]
  | (k', v') :: d, k, v => if k' = k then (k, v) :: d else (k', v') :: set d k v

/-- The keys, in insertion order. -/
def keys (d : List (α × β)) : List α := d.map Prod.fst

/-- Set a list of entries one after the other. -/
def update (d : List (α × β)) : List (α × β) → List (α × β)
  | [] => d
  | (k, v) :: es => update (set d k v) es

@[simp] theorem get_set_self (d : List (α × β)) (k : α) (v : β) : get (set d k v) k = some v := by
  fun_induction set d k v with
  | case1 k v => exact if_pos rfl
  | case2 v' d k v => exact if_pos rfl
  | case3 k' v' d k v hk ih => exact (if_neg hk).trans ih

variable {k : α} {d : List (α × β)} {v : β}

theorem get_set_ne (d : List (α × β)) {j : α} (v : β) (h : k ≠ j) :
    get (set d k v) j = get d j := by
  fun_induction set d k v with
  | case1 k v => exact if_neg h
  | case2 v' d k v => rw [get, get, if_neg h, if_neg h]
  | case3 k' v' d k v hk ih => rw [get, get, ih h]

theorem mem_of_get (h : get d k = some v) : (k, v) ∈ d := by
  fun_induction get d k with
  | case1 k => exact nomatch h
  | case2 v' d k =>
    cases h
    exact mem_cons_self
  | case3 k' v' d k hk ih => exact mem_cons_of_mem _ (ih h)

theorem mem_keys_of_get (h : get d k = some v) : k ∈ keys d :=
  mem_map.mpr ⟨(k, v), mem_of_get h, rfl⟩

theorem get_of_mem_keys (h : k ∈ keys d) : ∃ v, get d k = some v := by
  fun_induction get d k with
  | case1 k => exact nomatch h
  | case2 v' d k => exact ⟨v', rfl⟩
  | case3 k' v' d k hk ih => exact ih ((mem_cons.mp h).resolve_left (Ne.symm hk))

theorem mem_keys_set {j : α} (h : j = k ∨ j ∈ keys d) : j ∈ keys (set d k v) := by
  by_cases hj : j = k
  · subst hj
    exact mem_keys_of_get (get_set_self ..)
  · obtain ⟨w, hw⟩ := get_of_mem_keys (h.resolve_left hj)
    exact mem_keys_of_get ((get_set_ne d v (Ne.symm hj)).trans hw)

/-- An entry whose key has no other value is what `get` finds. -/
theorem get_of_mem_unique (h : (k, v) ∈ d) (hd : ∀ w, (k, w) ∈ d → w = v) : get d k = some v := by
  obtain ⟨w, hw⟩ := get_of_mem_keys (mem_map.mpr ⟨(k, v), h, rfl⟩)
  rw [hw, hd w (mem_of_get hw)]

/-- With distinct keys, an entry of the list is what `get` finds. -/
theorem get_of_mem (hd : (keys d).Nodup) (h : (k, v) ∈ d) : get d k = some v := by
  refine get_of_mem_unique h fun w hw => ?_
  exact (Prod.mk.inj (inj_on_of_nodup_map hd hw h rfl)).2

/-- Setting an absent key appends the entry. -/
theorem set_of_get_none (v : β) (h : get d k = none) : set d k v = d ++ [(k, v)] := by
  fun_induction get d k with
  | case1 k => rfl
  | case2 v' d k => exact nomatch h
  | case3 k' v' d k hk ih => rw [set, if_neg hk, ih h, cons_append]

/-- Setting a key that is present keeps the keys. -/
theorem keys_set_of_get {w : β} (h : get d k = some w) : keys (set d k v) = keys d := by
  fun_induction get d k with
  | case1 k => exact nomatch h
  | case2 v' d k =>
    rw [set, if_pos rfl]
    rfl
  | case3 k' v' d k hk ih =>
    rw [set, if_neg hk]
    exact congrArg (k' :: ·) (ih h)

theorem get_eq_none_iff : get d k = none ↔ k ∉ keys d := by
  constructor
  · intro h hk
    obtain ⟨v, hv⟩ := get_of_mem_keys hk
    rw [h] at hv
    cases hv
  · intro h
    cases hg : get d k with
    | none => rfl
    | some v => exact absurd (mem_keys_of_get hg) h

/-- The keys stay distinct. -/
theorem keys_set_nodup (hd : (keys d).Nodup) (k : α) (v : β) : (keys (set d k v)).Nodup := by
  cases hg : get d k with
  | none =>
    rw [set_of_get_none v hg, keys, map_append]
    exact nodup_append_comm.mp (nodup_cons.mpr ⟨get_eq_none_iff.mp hg, hd⟩)
  | some w =>
    rw [keys_set_of_get hg]
    exact hd

theorem mem_set {e : α × β} (h : e ∈ set d k v) : e = (k, v) ∨ e ∈ d := by
  fun_induction set d k v with
  | case1 k v => exact .inl (mem_singleton.mp h)
  | case2 v' d k v => exact (mem_cons.mp h).imp_right (mem_cons_of_mem _)
  | case3 k' v' d k v hk ih =>
    rcases mem_cons.mp h with rfl | hm
    · exact .inr mem_cons_self
    · exact (ih hm).imp_right (mem_cons_of_mem _)

variable {es : List (α × β)}

theorem mem_update {e : α × β} (h : e ∈ update d es) : e ∈ d ∨ e ∈ es := by
  induction es generalizing d with
  | nil => exact .inl h
  | cons e' es ih =>
    obtain ⟨k, v⟩ := e'
    rcases ih h with hm | hm
    · rcases mem_set hm with rfl | hd
      · exact .inr (mem_cons_self ..)
      · exact .inl hd
    · exact .inr (mem_cons_of_mem _ hm)

/-- A value is kept by an update that does not give its key another one. -/
theorem get_update_of_get
    (hd : get d k = some v) (hes : ∀ w, (k, w) ∈ es → w = v) : get (update d es) k = some v := by
  induction es generalizing d with
  | nil => exact hd
  | cons e es ih =>
    obtain ⟨k', w⟩ := e
    refine ih ?_ fun w' hw' => hes w' (mem_cons_of_mem _ hw')
    by_cases hk : k' = k
    · subst hk
      rw [get_set_self, hes w (mem_cons_self ..)]
    · rw [get_set_ne _ _ hk, hd]

/-- An entry of an update is found afterwards, when the update gives its key no other value. -/
theorem get_update_of_mem (hm : (k, v) ∈ es) (hes : ∀ w, (k, w) ∈ es → w = v) :
    get (update d es) k = some v := by
  induction es generalizing d with
  | nil => exact nomatch hm
  | cons e es ih =>
    have htail : ∀ w, (k, w) ∈ es → w = v := fun w hw => hes w (mem_cons_of_mem _ hw)
    rcases mem_cons.mp hm with rfl | hm
    · rw [update]
      exact get_update_of_get (get_set_self ..) htail
    · exact ih hm htail

/-- A comprehension that raises nowhere, entry by entry. -/
theorem map_eq_of_mapM {γ δ : Type} {f : γ → Option δ} {xs : List γ}
    {ys : List δ} (h : xs.mapM f = some ys) : xs.map f = ys.map some := by
  induction xs generalizing ys with
  | nil =>
    obtain rfl : [] = ys := Option.some.inj h
    rfl
  | cons x xs ih =>
    rw [mapM_cons] at h
    obtain ⟨y, hy, h⟩ := Option.bind_eq_some_iff.mp h
    obtain ⟨ys', hys, h⟩ := Option.bind_eq_some_iff.mp h
    cases h
    rw [map_cons, hy, ih hys, map_cons]

/-- The values of a comprehension. -/
theorem mem_mapM_iff {γ δ : Type} {f : γ → Option δ} {xs : List γ}
    {ys : List δ} (h : xs.mapM f = some ys) {y : δ} : y ∈ ys ↔ ∃ x ∈ xs, f x = some y := by
  rw [← mem_map_of_injective (Option.some_injective δ), ← map_eq_of_mapM h, mem_map]

end Dict
