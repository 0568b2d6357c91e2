import Pick.SchedProofs
import Pick.RunProofs

/-! # The timer list stays a sorted chain

`Holds` says that the links hold a list of exactly the live timers, with
`periodic_timer`, in order of wrapping time, and `sentinel_timer` behind it.
Each operation keeps it, as long as the wake times it compares are in a
stretch of less than `2 ^ 31` ticks. -/

namespace Sched

open Chain List Timer

/-! ## Wrapping order -/

/-- In order of wrapping time. -/
def Sorted (wt : TimerId → UInt32) (l : List TimerId) : Prop :=
  l.Pairwise fun x y => ¬ timerIsBefore (wt y) (wt x)

variable {wt wt' : TimerId → UInt32} {l : List TimerId} {base : UInt32}

/-- All wake times are in a stretch from `base` on. -/
def InStretch (base : UInt32) (wt : TimerId → UInt32) (l : List TimerId) : Prop :=
  ∀ x ∈ l, offset base (wt x) < 2 ^ 31

theorem Sorted.congr (h : Sorted wt l) (heq : ∀ x ∈ l, wt' x = wt x) : Sorted wt' l := by
  refine Pairwise.imp_of_mem ?_ h
  intro x y hx hy hxy
  rwa [heq x hx, heq y hy]

/-- In a stretch, order of wrapping time is order of time. -/
theorem sorted_iff_offset (hl : InStretch base wt l) :
    Sorted wt l ↔ l.Pairwise fun x y => offset base (wt x) ≤ offset base (wt y) := by
  refine Pairwise.iff_of_mem fun {x y} hx hy => ?_
  rw [timerIsBefore_iff_offset (hl y hy) (hl x hx), not_lt]

/-! ## What holds between operations -/

variable {s s' : State} {live : Finset Nat}

/-- The timers that are in the list, but for the sentinel. -/
def Listed (live : Finset Nat) (s : State) (x : TimerId) : Prop :=
  x = .periodic ∨ (∃ n ∈ live, x = .user n) ∨ (x = .deleted ∧ s.timerList = .deleted)

/-- **THE TIMER LIST** is `l` and the sentinel: it holds exactly the live timers
    and the periodic one, in order, with a deleted one at most in front. -/
structure Holds (s : State) (live : Finset Nat) (l : List TimerId) : Prop where
  linked : Linked s.next (l ++ [.sentinel])
  first : l.head? = some s.timerList
  nodup : l.Nodup
  mem : ∀ x, x ∈ l ↔ Listed live s x
  sorted : Sorted s.waketime l
  sentinel : s.waketime .sentinel = s.waketime .periodic + 0x80000000
  last : s.lastInsert ∈ l ∧ s.lastInsert ≠ .deleted

theorem Holds.exists_cons (h : Holds s live l) : ∃ rest, l = s.timerList :: rest := by
  cases l with
  | nil => exact nomatch h.first
  | cons t rest =>
    cases h.first
    exact ⟨rest, rfl⟩

theorem Holds.sentinel_not_mem (h : Holds s live l) : .sentinel ∉ l := by
  rw [h.mem]
  rintro (h | ⟨n, -, h⟩ | ⟨h, -⟩) <;> exact nomatch h

theorem Holds.user_mem {n : Nat} (h : Holds s live l) : .user n ∈ l ↔ n ∈ live := by
  rw [h.mem]
  refine ⟨?_, fun hn => .inr (.inl ⟨n, hn, rfl⟩)⟩
  rintro (hp | ⟨m, hm, hu⟩ | ⟨hd, -⟩)
  · cases hp
  · cases hu
    exact hm
  · cases hd

theorem nodup_append_sentinel (hnodup : l.Nodup) (hs : .sentinel ∉ l) :
    (l ++ [TimerId.sentinel]).Nodup :=
  nodup_append_comm.mp (nodup_cons.mpr ⟨hs, hnodup⟩)

theorem holds_initial : Holds initial ∅ [.periodic] where
  linked := ⟨rfl, rfl, trivial⟩
  first := rfl
  nodup := nodup_singleton _
  mem x := by
    rw [mem_singleton]
    refine ⟨.inl, ?_⟩
    rintro (h | ⟨n, hn, -⟩ | ⟨-, h⟩)
    · exact h
    · exact absurd hn (Finset.notMem_empty n)
    · cases h
  sorted := pairwise_singleton _ _
  sentinel := rfl
  last := ⟨mem_singleton.mpr rfl, nofun⟩

/-! ## Inserting -/

variable {front r rest : List TimerId} {x : TimerId} {w : UInt32}

/-- No timer is before a time that is before the first one. -/
theorem not_before_of_first (hsorted : Sorted wt (x :: rest)) (hl : InStretch base wt (x :: rest))
    (hw : offset base w < 2 ^ 31) (hbefore : timerIsBefore w (wt x)) :
    ∀ y ∈ x :: rest, ¬ timerIsBefore (wt y) w := by
  have hlt := (timerIsBefore_iff_offset hw (hl _ mem_cons_self)).mp hbefore
  have hle := (pairwise_cons.mp ((sorted_iff_offset hl).mp hsorted)).1
  intro y hy
  rw [timerIsBefore_iff_offset (hl y hy) hw]
  rcases mem_cons.mp hy with rfl | hy
  · omega
  · have := hle y hy
    omega

variable {back : List TimerId}

/-- Where a timer goes: behind everything not later, before what is later. -/
theorem sorted_insert {t : TimerId} (hsorted : Sorted wt (front ++ back))
    (hstretch : InStretch base wt (front ++ back)) (ht : offset base (wt t) < 2 ^ 31)
    (hfront : ∀ x ∈ front, ¬ timerIsBefore (wt t) (wt x))
    (hback : ∀ x ∈ back.head?, timerIsBefore (wt t) (wt x)) : Sorted wt (front ++ t :: back) := by
  obtain ⟨hf, hb, hcross⟩ := pairwise_append.mp hsorted
  refine pairwise_append.mpr ⟨hf, pairwise_cons.mpr ⟨?_, hb⟩, ?_⟩
  · cases back with
    | nil => exact nofun
    | cons y back => exact not_before_of_first hb (forall_mem_append.mp hstretch).2 ht (hback y rfl)
  · intro x hx
    exact forall_mem_cons.mpr ⟨hfront x hx, hcross x hx⟩

/-- What is cut off the end of a list has its last element. -/
theorem split_last {α : Type} {l front back : List α} {z : α}
    (hne : back ≠ []) (h : l ++ [z] = front ++ back) : ∃ r, back = r ++ [z] ∧ l = front ++ r := by
  obtain rfl | ⟨r, z', rfl⟩ := eq_nil_or_concat' back
  · exact absurd rfl hne
  rw [← append_assoc] at h
  obtain ⟨hl, hz⟩ := append_inj' h rfl
  rw [singleton_injective hz]
  exact ⟨r, rfl, hl⟩

section Later

variable {pos t : TimerId} (hlinked : Linked s.next (front ++ pos :: rest ++ [.sentinel]))
  (hsorted : Sorted s.waketime (front ++ pos :: rest))
  (hstretch : InStretch base s.waketime (front ++ pos :: rest))
  (ht : offset base (s.waketime t) < 2 ^ 31)
  (hpos : ¬ timerIsBefore (s.waketime t) (s.waketime pos))
include hsorted hstretch ht hpos

/-- Nothing before a timer that is not later than `t` is later than `t`. -/
theorem not_before_of_sorted :
    ∀ x ∈ front ++ [pos], ¬ timerIsBefore (s.waketime t) (s.waketime x) := by
  have hposIn := hstretch pos (mem_append_right _ mem_cons_self)
  intro x hx
  rcases mem_append.mp hx with hx | hx
  · rw [sorted_iff_offset hstretch, pairwise_append] at hsorted
    have hle := hsorted.2.2 x hx pos mem_cons_self
    rw [timerIsBefore_iff_offset ht hposIn] at hpos
    rw [timerIsBefore_iff_offset ht (hstretch x (mem_append_left _ hx))]
    omega
  · rwa [mem_singleton.mp hx]

variable (hsentinel : s.waketime .sentinel = s.waketime .periodic + 0x80000000)
  (hperiodic : .periodic ∈ t :: (front ++ pos :: rest))
include hsentinel hperiodic

/-- **THE INSERTION STOPS**: some timer behind `pos` is later, the sentinel if no other is. -/
theorem exists_later : ∃ x ∈ rest ++ [.sentinel], timerIsBefore (s.waketime t) (s.waketime x) := by
  by_cases hbefore : timerIsBefore (s.waketime t) (s.waketime .periodic) = true
  · -- the periodic timer is later, so it is behind `pos`
    refine ⟨.periodic, mem_append_left _ ?_, hbefore⟩
    rcases mem_cons.mp hperiodic with heq | hmem
    · rw [← heq, timerIsBefore_self] at hbefore
      cases hbefore
    · have hnot := not_before_of_sorted hsorted hstretch ht hpos
      rw [← singleton_append, ← append_assoc] at hmem
      rcases mem_append.mp hmem with hmem | hmem
      · exact absurd hbefore (hnot _ hmem)
      · exact hmem
  · refine ⟨.sentinel, mem_append_right _ mem_cons_self, ?_⟩
    rw [hsentinel, timerIsBefore_add_half, Bool.eq_false_iff.mpr hbefore]
    rfl

include hlinked in
/-- `insert_timer` from a timer that is not later. -/
theorem insertTimer_spec {fuel : Nat} (hnodup : (front ++ pos :: rest).Nodup)
    (hsent : .sentinel ∉ t :: (front ++ pos :: rest))
    (htnot : t ∉ front ++ pos :: rest) (hfuel : rest.length + 1 < fuel) :
    ∃ next' l r, insertTimer fuel pos t (s.waketime t) s
        = .ok { s with next := next' } ∧
      front ++ pos :: rest = l ++ r ∧ l ≠ [] ∧ Linked next' (l ++ t :: r ++ [.sentinel]) ∧
      Sorted s.waketime (l ++ t :: r) := by
  rw [append_assoc, cons_append] at hlinked
  have hlen : (rest ++ [TimerId.sentinel]).length < fuel := by
    rw [length_append, length_singleton]
    omega
  obtain ⟨pre, prev, y, post, hsplit, hpre, hy, hfind⟩ :=
    find_of_mem (p := fun x => timerIsBefore (s.waketime t) (s.waketime x)) hlinked.right hlen
      (exists_later hsorted hstretch ht hpos hsentinel hperiodic)
  -- the list ends with the sentinel, so what is behind `prev` does
  have hparts : (pos :: rest) ++ [TimerId.sentinel] = (pre ++ [prev]) ++ y :: post := by
    rw [cons_append, hsplit, append_assoc]
    rfl
  obtain ⟨r, hr, hrest⟩ := split_last (cons_ne_nil _ _) hparts
  have hlist : front ++ pos :: rest = (front ++ pre ++ [prev]) ++ r := by
    simp only [hrest, append_assoc]
  have hfull : front ++ pos :: (rest ++ [TimerId.sentinel])
      = (front ++ pre) ++ prev :: y :: post := by
    rw [hsplit, append_assoc]
  -- what is not later than the timer: all up to `pos`, and up to `prev`
  have hfront : ∀ x ∈ front ++ pre ++ [prev], ¬ timerIsBefore (s.waketime t) (s.waketime x) := by
    have hbegin := not_before_of_sorted hsorted hstretch ht hpos
    obtain ⟨tl, htl⟩ : ∃ tl, pre ++ [prev] = pos :: tl := by
      cases pre with
      | nil =>
        cases hrest
        exact ⟨[], rfl⟩
      | cons x pre =>
        cases hrest
        exact ⟨pre ++ [prev], rfl⟩
    rw [htl] at hpre
    rw [append_assoc, htl]
    obtain ⟨hfront, -⟩ := forall_mem_append.mp hbegin
    exact forall_mem_append.mpr ⟨hfront, forall_mem_cons.mpr ⟨hpos, hpre⟩⟩
  have hback : ∀ x ∈ r.head?, timerIsBefore (s.waketime t) (s.waketime x) := by
    intro x hx
    cases r with
    | nil => exact nomatch hx
    | cons x' r =>
      cases hx
      cases hr
      exact hy
  refine ⟨Function.update (Function.update s.next t (some y)) prev (some t),
    front ++ pre ++ [prev], r, ?_, hlist, by simp, ?_, ?_⟩
  · rw [insertTimer, hfind]
    rfl
  · have hnodup' := nodup_append_sentinel hnodup fun hmem => hsent (mem_cons_of_mem _ hmem)
    rw [append_assoc, cons_append, hfull] at hnodup'
    rw [hfull] at hlinked
    have htnot' : t ∉ (front ++ pre) ++ prev :: y :: post := by
      rw [← hfull, ← cons_append, ← append_assoc]
      intro hmem
      rcases mem_append.mp hmem with hmem | hmem
      · exact htnot hmem
      · rw [← mem_singleton.mp hmem] at hsent
        exact hsent mem_cons_self
    have hshape : front ++ pre ++ [prev] ++ t :: r ++ [TimerId.sentinel]
        = front ++ pre ++ prev :: t :: y :: post := by
      rw [hr]
      simp only [append_assoc, cons_append, nil_append]
    rw [hshape]
    exact hlinked.link hnodup' htnot'
  · rw [hlist] at hsorted hstretch
    exact sorted_insert hsorted hstretch ht hfront hback

end Later

/-! ## The list without a deleted timer in front -/

/-- The timers `r` are linked, and are the live ones and the periodic one. -/
structure Core (s : State) (live : Finset Nat) (r : List TimerId) : Prop where
  linked : Linked s.next (r ++ [.sentinel])
  nodup : r.Nodup
  mem : ∀ x, x ∈ r ↔ x = .periodic ∨ ∃ n ∈ live, x = .user n
  sorted : Sorted s.waketime r
  last : s.lastInsert ∈ r

theorem ne_special (h : x = .periodic ∨ ∃ n ∈ live, x = .user n) :
    x ≠ .deleted ∧ x ≠ .sentinel := by
  rcases h with rfl | ⟨n, -, rfl⟩ <;> exact ⟨nofun, nofun⟩

theorem Core.deleted_not_mem (h : Core s live r) : .deleted ∉ r :=
  fun hmem => (ne_special ((h.mem _).mp hmem)).1 rfl

theorem Core.last_ne (h : Core s live r) : s.lastInsert ≠ .deleted :=
  ne_of_mem_of_not_mem h.last h.deleted_not_mem

theorem Core.user_mem {n : Nat} (h : Core s live r) : .user n ∈ r ↔ n ∈ live := by
  rw [h.mem]
  refine ⟨?_, fun hn => .inr ⟨n, hn, rfl⟩⟩
  rintro (h | ⟨m, hm, h⟩)
  · cases h
  · cases h
    exact hm

theorem not_mem_sentinel (hx : x ∉ r) (hne : x ≠ .sentinel) : x ∉ r ++ [.sentinel] := by
  rw [mem_append, mem_singleton]
  exact not_or.mpr ⟨hx, hne⟩

theorem listed_of_ne (hdel : s.timerList ≠ .deleted) :
    Listed live s x ↔ x = .periodic ∨ ∃ n ∈ live, x = .user n := by
  simp only [Listed, hdel, and_false, or_false]

theorem listed_of_eq (hdel : s.timerList = .deleted) :
    Listed live s x ↔ x = .deleted ∨ x = .periodic ∨ ∃ n ∈ live, x = .user n := by
  rw [Listed, and_iff_left hdel, ← or_assoc, or_comm]

/-- The deleted timer is in front of the others or not in the list. -/
theorem Holds.core (h : Holds s live l) :
    ∃ r, Core s live r ∧
      ((s.timerList ≠ .deleted ∧ l = r) ∨ (s.timerList = .deleted ∧ l = .deleted :: r)) := by
  by_cases hdel : s.timerList = .deleted
  · obtain ⟨r, rfl⟩ := h.exists_cons
    have hlinked := h.linked
    have hnodup := h.nodup
    have hmem := h.mem
    have hsorted := h.sorted
    obtain ⟨hlast, hne⟩ := h.last
    rw [hdel] at hlinked hnodup hmem hsorted hlast
    refine ⟨r, ⟨hlinked.2, (nodup_cons.mp hnodup).2, ?_,
      (pairwise_cons.mp hsorted).2, ?_⟩, .inr ⟨hdel, by rw [hdel]⟩⟩
    · intro x
      have hx := hmem x
      rw [mem_cons, listed_of_eq hdel] at hx
      refine ⟨fun hmem => (hx.mp (.inr hmem)).resolve_left ?_,
        fun hlive => (hx.mpr (.inr hlive)).resolve_left (ne_special hlive).1⟩
      exact ne_of_mem_of_not_mem hmem (nodup_cons.mp hnodup).1
    · exact (mem_cons.mp hlast).resolve_left hne
  · refine ⟨l, ⟨h.linked, h.nodup, ?_, h.sorted, h.last.1⟩, .inl ⟨hdel, rfl⟩⟩
    intro x
    rw [h.mem, listed_of_ne hdel]

/-- Without a deleted timer in front. -/
theorem Core.holds (h : Core s live r) (hfirst : r.head? = some s.timerList)
    (hsentinel : s.waketime .sentinel = s.waketime .periodic + 0x80000000) : Holds s live r := by
  have hdel : s.timerList ≠ .deleted := fun hd => h.deleted_not_mem (hd ▸ mem_of_head? hfirst)
  refine ⟨h.linked, hfirst, h.nodup, ?_, h.sorted, hsentinel, h.last, h.last_ne⟩
  intro x
  rw [h.mem, listed_of_ne hdel]

/-- With one. -/
theorem Core.holds_deleted (h : Core s live r) (hfirst : s.timerList = .deleted)
    (hlink : s.next .deleted = (r ++ [TimerId.sentinel]).head?)
    (hle : ∀ x ∈ r, ¬ timerIsBefore (s.waketime x) (s.waketime .deleted))
    (hsentinel : s.waketime .sentinel = s.waketime .periodic + 0x80000000) :
    Holds s live (.deleted :: r) := by
  refine ⟨⟨hlink, h.linked⟩, by rw [hfirst]; rfl, nodup_cons.mpr ⟨h.deleted_not_mem, h.nodup⟩, ?_,
    pairwise_cons.mpr ⟨hle, h.sorted⟩, hsentinel,
    mem_cons_of_mem _ h.last, h.last_ne⟩
  intro x
  rw [mem_cons, h.mem, listed_of_eq hfirst]

/-! ## Adding -/

variable {fuel n : Nat} {now : UInt32} {isShutdown : Bool}

/-- A new timer in front of the others, behind the deleted one. -/
theorem Core.addFirst (h : Core s live r) (hn : n ∉ live)
    (hlink : (if s.timerList = .deleted then s.next .deleted else some s.timerList)
      = (r ++ [TimerId.sentinel]).head?)
    (hw : ∀ x ∈ r, ¬ timerIsBefore (s.waketime x) w)
    (hs' : s' = Sched.addFirst (.user n) w (s.setWaketime (.user n) w)) :
    Core s' (insert n live) (.user n :: r) ∧
      ∀ x ∈ TimerId.user n :: r, ¬ timerIsBefore (s'.waketime x) w := by
  subst hs'
  have hnot : .user n ∉ r := fun hmem => hn (h.user_mem.mp hmem)
  have hkeep : ∀ x ∈ r, (Sched.addFirst (.user n) w
      (s.setWaketime (.user n) w)).waketime x = s.waketime x := fun x hx =>
    (update_of_not_mem h.deleted_not_mem x hx).trans (update_of_not_mem hnot x hx)
  have hlate : ∀ x ∈ r, ¬ timerIsBefore ((Sched.addFirst (.user n) w
      (s.setWaketime (.user n) w)).waketime x) w := by
    intro x hx
    rw [hkeep x hx]
    exact hw x hx
  have hown : (Sched.addFirst (.user n) w
      (s.setWaketime (.user n) w)).waketime (.user n) = w :=
    (Function.update_self (TimerId.user n) w s.waketime :)
  refine ⟨⟨?_, nodup_cons.mpr ⟨hnot, h.nodup⟩, ?_, ?_, mem_cons_of_mem _ h.last⟩, ?_⟩
  · have hlinked := h.linked.cons (not_mem_sentinel hnot nofun)
    rw [← hlink] at hlinked
    exact hlinked.congr (update_of_not_mem (not_mem_cons_of_ne_of_not_mem nofun
      (not_mem_sentinel h.deleted_not_mem nofun)))
  · intro x
    rw [mem_cons, h.mem, Finset.exists_mem_insert, or_left_comm]
  · rw [Sorted, pairwise_cons, hown]
    exact ⟨hlate, h.sorted.congr hkeep⟩
  · rw [forall_mem_cons, hown, timerIsBefore_self]
    exact ⟨nofun, hlate⟩

/-- A live timer more, somewhere in the list. -/
theorem listed_insert (hmem : ∀ x, x ∈ front ++ back ↔ Listed live s x)
    (hfirst : s'.timerList = s.timerList) :
    x ∈ front ++ .user n :: back ↔ Listed (insert n live) s' x := by
  rw [mem_append, mem_cons, or_left_comm, ← mem_append, hmem,
    Listed, Listed, hfirst, Finset.exists_mem_insert, or_assoc, or_left_comm]

/-- What is behind the deleted timer, if it is in front. -/
theorem Holds.core_link (h : Holds s live l) (hcases : (s.timerList ≠ .deleted ∧ l = r) ∨
      (s.timerList = .deleted ∧ l = .deleted :: r)) :
    (if s.timerList = .deleted then s.next .deleted else some s.timerList)
        = (r ++ [TimerId.sentinel]).head? ∧ r <:+ l := by
  rcases hcases with ⟨hne, rfl⟩ | ⟨heq, rfl⟩
  · obtain ⟨rest, rfl⟩ := h.exists_cons
    exact ⟨if_neg hne, suffix_refl _⟩
  · rw [if_pos heq]
    exact ⟨h.linked.1, suffix_cons _ _⟩

/-- A timer that is before all others. -/
theorem addFirst_holds (h : Holds s live l) (hn : n ∉ live)
    (hlate : ∀ x ∈ l, ¬ timerIsBefore (s.waketime x) w) :
    ∃ l', Holds (addFirst (.user n) w (s.setWaketime (.user n) w)) (insert n live) l' := by
  obtain ⟨r, hcore, hcases⟩ := h.core
  obtain ⟨hlink, hsuffix⟩ := h.core_link hcases
  obtain ⟨hcore', hlate'⟩ := hcore.addFirst hn hlink (fun x hx => hlate x (hsuffix.subset hx)) rfl
  exact ⟨_, hcore'.holds_deleted rfl rfl hlate' h.sentinel⟩

/-- A new timer behind the first one. -/
theorem Holds.inserted (h : Holds s live l) (hn : n ∉ live)
    {next' : TimerId → Option TimerId} (hsplit : l = front ++ back) (hne : front ≠ [])
    (hlinked : Linked next' (front ++ .user n :: back ++ [.sentinel]))
    (hsorted : Sorted (s.setWaketime (.user n) w).waketime (front ++ .user n :: back)) :
    Holds { s.setWaketime (.user n) w with next := next' } (insert n live)
      (front ++ .user n :: back) := by
  subst hsplit
  have hnot : .user n ∉ front ++ back := fun hmem => hn (h.user_mem.mp hmem)
  refine ⟨hlinked, ?_, ?_, ?_, hsorted, h.sentinel, ?_, h.last.2⟩
  · have hfirst := h.first
    cases front with
    | nil => exact absurd rfl hne
    | cons x front => exact hfirst
  · exact nodup_middle.mpr (nodup_cons.mpr ⟨hnot, h.nodup⟩)
  · exact fun x => listed_insert h.mem rfl
  · rw [mem_append, mem_cons]
    exact (mem_append.mp h.last.1).imp_right .inr

/-- **ADDING** a timer: it shuts down for a time that is past, or the list holds one more. -/
theorem schedAddTimer_spec (now : UInt32) (isShutdown : Bool) (h : Holds s live l) (hn : n ∉ live)
    (hw : offset base w < 2 ^ 31) (hl : InStretch base s.waketime l) (hfuel : l.length < fuel) :
    schedAddTimer fuel (.user n) w now isShutdown s = .error .timerTooClose ∨
      ∃ s' l', schedAddTimer fuel (.user n) w now isShutdown s = .ok s' ∧
        Holds s' (insert n live) l' := by
  obtain ⟨rest, rfl⟩ := h.exists_cons
  have hnot : .user n ∉ s.timerList :: rest := fun hmem => hn (h.user_mem.mp hmem)
  have hkeep : ∀ x ∈ s.timerList :: rest, (s.setWaketime (.user n) w).waketime x = s.waketime x :=
    update_of_not_mem hnot
  have hown : (s.setWaketime (.user n) w).waketime (.user n) = w := Function.update_self ..
  obtain ⟨before, hb⟩ : ∃ before, timerIsBefore w
      ((s.setWaketime (.user n) w).waketime s.timerList) = before := ⟨_, rfl⟩
  have hadd : schedAddTimer fuel (.user n) w now isShutdown s
      = if before then
          if timerIsBefore w now ∧ ¬ isShutdown then .error .timerTooClose
          else .ok (addFirst (.user n) w (s.setWaketime (.user n) w))
        else insertTimer fuel s.timerList (.user n) w (s.setWaketime (.user n) w) := by
    rw [← hb]
    rfl
  rw [hadd]
  cases before with
  | true =>
    rw [if_pos rfl]
    by_cases hclose : timerIsBefore w now = true ∧ ¬ isShutdown = true
    · exact .inl (if_pos hclose)
    · rw [if_neg hclose]
      rw [hkeep _ mem_cons_self] at hb
      obtain ⟨l', hl'⟩ := addFirst_holds h hn (not_before_of_first h.sorted hl hw hb)
      exact .inr ⟨_, l', rfl, hl'⟩
  | false =>
    rw [if_neg nofun]
    have hchain : Linked (s.setWaketime (.user n) w).next
        ([] ++ s.timerList :: rest ++ [TimerId.sentinel]) := h.linked
    have hsent : .sentinel ∉ TimerId.user n :: (s.timerList :: rest) :=
      not_mem_cons_of_ne_of_not_mem nofun h.sentinel_not_mem
    have hin : InStretch base (s.setWaketime (.user n) w).waketime (s.timerList :: rest) := by
      intro x hx
      rw [hkeep x hx]
      exact hl x hx
    obtain ⟨next', front, back, hins, hsplit, hne, hlinked, hsorted⟩ :=
      insertTimer_spec (s := s.setWaketime (.user n) w) (t := .user n)
        hchain (h.sorted.congr hkeep) hin (by rw [hown]; exact hw)
        (by rw [hown, hb]; exact nofun) h.sentinel
        (mem_cons_of_mem _ ((h.mem .periodic).mpr (.inl rfl)))
        h.nodup hsent hnot hfuel
    rw [hown] at hins
    exact .inr ⟨_, _, hins, h.inserted hn hsplit hne hlinked hsorted⟩

/-! ## Deleting -/

/-- One live timer less. -/
theorem mem_erase_live :
    (x = .periodic ∨ ∃ m ∈ live.erase n, x = .user m) ↔
      (x = .periodic ∨ ∃ m ∈ live, x = .user m) ∧ x ≠ .user n := by
  constructor
  · rintro (rfl | ⟨m, hm, rfl⟩)
    · exact ⟨.inl rfl, nofun⟩
    · obtain ⟨hne, hm⟩ := Finset.mem_erase.mp hm
      exact ⟨.inr ⟨m, hm, rfl⟩, fun heq => hne (TimerId.user.inj heq)⟩
  · rintro ⟨rfl | ⟨m, hm, rfl⟩, hne⟩
    · exact .inl rfl
    · exact .inr ⟨m, Finset.mem_erase.mpr ⟨fun heq => hne (congrArg TimerId.user heq), hm⟩, rfl⟩

theorem forget_eq (s : State) (x : TimerId) : s.forget x = { s with
    lastInsert := if s.lastInsert = x then .periodic else s.lastInsert } := by
  rw [State.forget]
  split <;> rfl

theorem forget_last (hlast : s.lastInsert ∈ r) (hperiodic : .periodic ∈ r.erase (.user n)) :
    (if s.lastInsert = .user n then .periodic else s.lastInsert) ∈ r.erase (.user n) := by
  split
  · exact hperiodic
  · rename_i hne
    exact (mem_erase_of_ne hne).mpr hlast

/-- The first timer is deleted. -/
theorem schedDelTimer_first (fuel : Nat) (h : Holds s live l) (hfirst : s.timerList = .user n) :
    ∃ s' l', schedDelTimer fuel (.user n) s = .ok s' ∧
      Holds s' (live.erase n) l' ∧ l'.length = l.length := by
  obtain ⟨r, hcore, hcases⟩ := h.core
  have hne : s.timerList ≠ .deleted := by
    rw [hfirst]
    exact nofun
  obtain ⟨-, rfl⟩ := hcases.resolve_right fun hd => hne hd.1
  obtain ⟨rest, hl⟩ := h.exists_cons
  rw [hfirst] at hl
  subst hl
  have hdel : .deleted ∉ rest ++ [TimerId.sentinel] :=
    not_mem_sentinel (fun hmem => hcore.deleted_not_mem (mem_cons_of_mem _ hmem)) nofun
  have herase : (TimerId.user n :: rest).erase (.user n) = rest := erase_cons_head _ _
  have hmem : ∀ x, x ∈ rest ↔ x = .periodic ∨ ∃ m ∈ live.erase n, x = .user m := by
    intro x
    rw [mem_erase_live, ← hcore.mem, and_comm, ← hcore.nodup.mem_erase_iff, herase]
  have hkeep : ∀ x ∈ rest, Function.update s.waketime .deleted
      (s.waketime (.user n)) x = s.waketime x :=
    update_of_not_mem fun hmem => hdel (mem_append_left _ hmem)
  have hsorted := pairwise_cons.mp h.sorted
  have hlast := forget_last h.last.1 (by rw [herase]; exact (hmem _).mpr (.inl rfl))
  rw [herase] at hlast
  have hcore' : Core { (s.setWaketime .deleted (s.waketime (.user n))).setNext
      .deleted (s.next (.user n)) with
      timerList := .deleted
      lastInsert := if s.lastInsert = .user n then .periodic else s.lastInsert }
      (live.erase n) rest :=
    ⟨h.linked.2.congr (update_of_not_mem hdel), (nodup_cons.mp h.nodup).2, hmem,
      Sorted.congr hsorted.2 hkeep, hlast⟩
  refine ⟨_, .deleted :: rest, (if_pos hfirst).trans (congrArg _ (forget_eq _ _)),
    hcore'.holds_deleted rfl h.linked.1 ?_ h.sentinel, rfl⟩
  intro x hx
  show ¬ timerIsBefore (Function.update s.waketime .deleted
    (s.waketime (.user n)) x) (s.waketime (.user n)) = true
  rw [hkeep x hx]
  exact hsorted.1 x hx

theorem listed_erase (hfirst : s'.timerList = s.timerList) :
    Listed (live.erase n) s' x ↔ x ≠ .user n ∧ Listed live s x := by
  rw [Listed, Listed, ← or_assoc, mem_erase_live, hfirst]
  constructor
  · rintro (⟨h, hne⟩ | ⟨hd, hfirst⟩)
    · exact ⟨hne, h.imp_right .inl⟩
    · exact ⟨hd ▸ nofun, .inr (.inr ⟨hd, hfirst⟩)⟩
  · rintro ⟨hne, hp | hu | hd⟩
    · exact .inl ⟨.inl hp, hne⟩
    · exact .inl ⟨.inr hu, hne⟩
    · exact .inr hd

/-- A timer that is not the first is deleted, if it is in the list. -/
theorem schedDelTimer_other (h : Holds s live l)
    (hfirst : s.timerList ≠ .user n) (hfuel : l.length < fuel) :
    ∃ s' l', schedDelTimer fuel (.user n) s = .ok s' ∧
      Holds s' (live.erase n) l' ∧ l'.length ≤ l.length ∧
      s'.timerList = s.timerList ∧ s'.waketime = s.waketime := by
  obtain ⟨rest, rfl⟩ := h.exists_cons
  have hlen : (rest ++ [TimerId.sentinel]).length < fuel := by
    rwa [length_append, length_singleton, ← length_cons]
  have hlinked : Linked s.next (s.timerList :: (rest ++ [TimerId.sentinel])) := h.linked
  by_cases hn : n ∈ live
  · have hin : TimerId.user n ∈ rest :=
      (mem_cons.mp (h.user_mem.mpr hn)).resolve_left (Ne.symm hfirst)
    obtain ⟨pre, prev, pos, post, hsplit, -, hpos, hfind⟩ :=
      find_of_mem (p := fun x => decide (x = TimerId.user n)) hlinked hlen
        ⟨.user n, mem_append_left _ hin, decide_eq_true rfl⟩
    have hposn : pos = .user n := of_decide_eq_true hpos
    subst hposn
    have hparts : (s.timerList :: rest) ++ [TimerId.sentinel]
        = (pre ++ [prev]) ++ .user n :: post := by
      rw [cons_append, hsplit, append_assoc]
      rfl
    obtain ⟨r, hr, hlist⟩ := split_last (cons_ne_nil _ _) hparts
    obtain ⟨back, rfl, rfl⟩ : ∃ back, r = .user n :: back ∧ post = back ++ [TimerId.sentinel] := by
      cases r with
      | nil => exact nomatch hr
      | cons x back =>
        cases hr
        exact ⟨back, rfl, rfl⟩
    have hnodup := h.nodup
    have hlong := nodup_append_sentinel hnodup h.sentinel_not_mem
    rw [cons_append, hsplit] at hlong
    rw [hsplit] at hlinked
    have herase : (s.timerList :: rest).erase (.user n) = pre ++ [prev] ++ back := by
      have hnot : TimerId.user n ∉ pre ++ [prev] := by
        rw [hlist, nodup_append] at hnodup
        exact fun hmem => hnodup.2.2 _ hmem _ mem_cons_self rfl
      rw [hlist, erase_append_right _ hnot, erase_cons_head]
    refine ⟨{ s.setNext prev (s.next (.user n)) with
        lastInsert := if s.lastInsert = .user n then .periodic else s.lastInsert },
      (s.timerList :: rest).erase (.user n), ?_, ⟨?_, ?_, hnodup.erase _, ?_,
        Pairwise.sublist erase_sublist h.sorted, h.sentinel,
        forget_last h.last.1 ?_, ?_⟩, length_erase_le, rfl, rfl⟩
    · rw [schedDelTimer, if_neg hfirst, unlinkTimer, hfind]
      exact congrArg Except.ok (forget_eq _ _)
    · rw [herase, append_assoc, append_assoc]
      exact hlinked.unlink hlong
    · rw [erase_cons_tail (by simpa using hfirst)]
      rfl
    · intro x
      rw [hnodup.mem_erase_iff, h.mem]
      exact (listed_erase rfl).symm
    · have hne : TimerId.periodic ≠ .user n := nofun
      exact (mem_erase_of_ne hne).mpr ((h.mem _).mpr (.inl rfl))
    · show (if s.lastInsert = .user n then TimerId.periodic else s.lastInsert) ≠ _
      split
      · exact nofun
      · exact h.last.2
  · -- nothing is found
    have hfind := find_of_not_mem (p := fun x => decide (x = TimerId.user n))
      hlinked hlen fun x hx hxn => by
        rw [of_decide_eq_true hxn] at hx
        refine not_mem_sentinel (x := .user n) (fun hx => ?_) nofun hx
        exact hn (h.user_mem.mp (mem_cons_of_mem _ hx))
    have hforget : s.forget (.user n) = s := by
      refine if_neg fun heq => hn (h.user_mem.mp ?_)
      rw [← heq]
      exact h.last.1
    refine ⟨s, _, ?_, ?_, Nat.le_refl _, rfl, rfl⟩
    · rw [schedDelTimer, if_neg hfirst, unlinkTimer, hfind]
      exact congrArg Except.ok hforget
    · rw [Finset.erase_eq_of_notMem hn]
      exact h

end Sched
