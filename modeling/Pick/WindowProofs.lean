import Mathlib

/-! # Sliding windows over lossy channels

A sender numbers its items and keeps at most `W` of them unacknowledged; a
receiver takes them in order.  The channels are FIFO, may lose and spoil
entries, and carry numbers modulo `M` only.  The sender may send all
unacknowledged items again at any time, so the data channel can hold many
stale copies.

When `W < M` the receiver gets each item once and in order.  The heart is
`Fresh`: along the data channel no copy is more than `W` behind what the
receiver may have reached when the copy arrives, so a stale number never
looks like the expected one. -/

namespace Window

open List

variable {β : Type}

/-- What is left of the number `n` on the channels. -/
def tag (M start n : Nat) : Nat := (start + n) % M

/-- The two ends and the two channels.  A spoiled entry is `none`. -/
structure State (β : Type) where
  sent : List β := []
  acked : Nat := 0
  delivered : List β := []
  data : List (Option (Nat × β)) := []
  acks : List (Option Nat) := []

/-- Items with their tags, from number `n` on. -/
def numbered (M start : Nat) : Nat → List β → List (Option (Nat × β))
  | _, [] => []
  | n, b :: bs => some (tag M start n, b) :: numbered M start (n + 1) bs

/-- One step of the sender, the receiver or a channel.  An entry that its
    receiver ignores is lost. -/
inductive Step (M W start : Nat) : State β → State β → Prop
  | send (s : State β) (b : β) (h : s.sent.length < s.acked + W) :
      Step M W start s { s with
        sent := s.sent ++ [b]
        data := s.data ++ [some (tag M start s.sent.length, b)] }
  | resend (s : State β) :
      Step M W start s { s with
        data := s.data ++ numbered M start s.acked (s.sent.drop s.acked) }
  | loseData (s : State β) (ds : List (Option (Nat × β)))
      (h : ds.Sublist s.data) : Step M W start s { s with data := ds }
  | spoilData (s : State β) (l₁ l₂ : List (Option (Nat × β)))
      (x : Option (Nat × β)) (h : s.data = l₁ ++ x :: l₂) :
      Step M W start s { s with data := l₁ ++ none :: l₂ }
  | accept (s : State β) (b : β) (ds : List (Option (Nat × β)))
      (h : s.data = some (tag M start s.delivered.length, b) :: ds) :
      Step M W start s { s with delivered := s.delivered ++ [b] }
  | ack (s : State β) :
      Step M W start s { s with
        acks := s.acks ++ [some (tag M start s.delivered.length)] }
  | loseAcks (s : State β) (as : List (Option Nat)) (h : as.Sublist s.acks) :
      Step M W start s { s with acks := as }
  | spoilAck (s : State β) (l₁ l₂ : List (Option Nat)) (x : Option Nat)
      (h : s.acks = l₁ ++ x :: l₂) :
      Step M W start s { s with acks := l₁ ++ none :: l₂ }
  | learn (s : State β) (k : Nat) (as : List (Option Nat)) (hk : k < M)
      (h : s.acks = some (tag M start (s.acked + k)) :: as) :
      Step M W start s { s with acked := s.acked + k, acks := as }

/-! ## Tags -/

/-- Numbers less than `M` apart are told apart by their tags. -/
theorem tag_inj {M start a b : Nat} (h : tag M start a = tag M start b)
    (hab : a < b + M) (hba : b < a + M) : a = b := by
  have hmod : a ≡ b [MOD M] := Nat.ModEq.add_left_cancel' start h
  rcases Nat.le_total a b with hle | hle
  · have hdvd := (Nat.modEq_iff_dvd' hle).mp hmod
    have hzero := Nat.eq_zero_of_dvd_of_lt hdvd (by omega)
    omega
  · have hdvd := (Nat.modEq_iff_dvd' hle).mp hmod.symm
    have hzero := Nat.eq_zero_of_dvd_of_lt hdvd (by omega)
    omega

/-! ## The data channel -/

/-- Every copy on the channel is the item of its number, and no copy is more than `W` below `m`,
    where `m` bounds what the receiver may have reached by the time the copy arrives. -/
def Fresh (M W start : Nat) (sent : List β) :
    Nat → List (Option (Nat × β)) → Prop
  | _, [] => True
  | m, none :: ds => Fresh M W start sent m ds
  | m, some (t, b) :: ds => ∃ i, sent[i]? = some b ∧ t = tag M start i
      ∧ m ≤ i + W ∧ Fresh M W start sent (max m (i + 1)) ds

section Fresh

variable {M W start m : Nat} {sent : List β} {ds : List (Option (Nat × β))}

theorem Fresh.anti {m' : Nat} (hm : m' ≤ m) (h : Fresh M W start sent m ds) :
    Fresh M W start sent m' ds := by
  fun_induction Fresh M W start sent m ds generalizing m' with
  | case1 => trivial
  | case2 m ds ih => exact ih hm h
  | case3 m t b ds ih =>
    obtain ⟨i, hi, ht, hw, hds⟩ := h
    exact ⟨i, hi, ht, by omega, ih i (by omega) hds⟩

/-- Losing copies only helps. -/
theorem Fresh.sublist {ds' : List (Option (Nat × β))} (hs : ds'.Sublist ds)
    (h : Fresh M W start sent m ds) : Fresh M W start sent m ds' := by
  induction hs generalizing m with
  | slnil => trivial
  | cons d _ ih =>
    cases d with
    | none => exact ih h
    | some p =>
      obtain ⟨i, -, -, -, hds⟩ := h
      exact (ih hds).anti (by omega)
  | cons_cons d _ ih =>
    cases d with
    | none => exact ih h
    | some p =>
      obtain ⟨i, hi, ht, hw, hds⟩ := h
      exact ⟨i, hi, ht, hw, ih hds⟩

theorem Fresh.spoil {l₁ l₂ : List (Option (Nat × β))} {x : Option (Nat × β)}
    (h : Fresh M W start sent m (l₁ ++ x :: l₂)) : Fresh M W start sent m (l₁ ++ none :: l₂) := by
  induction l₁ generalizing m with
  | nil =>
    show Fresh M W start sent m l₂
    exact Fresh.sublist (sublist_cons_self x l₂) h
  | cons d l₁ ih =>
    cases d with
    | none => exact ih h
    | some p =>
      obtain ⟨i, hi, ht, hw, hds⟩ := h
      exact ⟨i, hi, ht, hw, ih hds⟩

/-- The items keep their numbers when more are sent. -/
theorem Fresh.extend (bs : List β) (h : Fresh M W start sent m ds) :
    Fresh M W start (sent ++ bs) m ds := by
  fun_induction Fresh M W start sent m ds with
  | case1 => trivial
  | case2 m ds ih => exact ih h
  | case3 m t b ds ih =>
    obtain ⟨i, hi, ht, hw, hds⟩ := h
    have hlt := (List.getElem?_eq_some_iff.mp hi).1
    exact ⟨i, by rw [getElem?_append_left hlt, hi], ht, hw, ih i hds⟩

/-- Putting copies behind others: the bound that holds after the channel is
    at most the number of items sent. -/
theorem Fresh.append {es : List (Option (Nat × β))} (hm : m ≤ sent.length)
    (h : Fresh M W start sent m ds) (hes : Fresh M W start sent sent.length es) :
    Fresh M W start sent m (ds ++ es) := by
  fun_induction Fresh M W start sent m ds with
  | case1 => exact hes.anti hm
  | case2 m ds ih => exact ih hm h
  | case3 m t b ds ih =>
    obtain ⟨i, hi, ht, hw, hds⟩ := h
    have hlt := (List.getElem?_eq_some_iff.mp hi).1
    exact ⟨i, hi, ht, hw, ih i (by omega) hds⟩

/-- A run of items that ends with the last one sent. -/
theorem fresh_numbered {n : Nat} {bs : List β} (hbs : sent.drop n = bs) (hw : sent.length ≤ n + W) :
    Fresh M W start sent sent.length (numbered M start n bs) := by
  induction bs generalizing n with
  | nil => trivial
  | cons b bs ih =>
    have hget : sent[n]? = some b := by
      rw [← head?_drop, hbs]
      rfl
    have hlt := (List.getElem?_eq_some_iff.mp hget).1
    have htail : sent.drop (n + 1) = bs := by
      rw [← tail_drop, hbs]
      rfl
    refine ⟨n, hget, rfl, hw, ?_⟩
    rw [max_eq_left (by omega)]
    exact ih htail (by omega)

end Fresh

/-! ## The acknowledgement channel -/

/-- The acknowledgements on the channel are in order, from `lo` to `hi`. -/
def Ordered (M start hi : Nat) : Nat → List (Option Nat) → Prop
  | _, [] => True
  | lo, none :: as => Ordered M start hi lo as
  | lo, some t :: as => ∃ n, t = tag M start n ∧ lo ≤ n ∧ n ≤ hi ∧ Ordered M start hi n as

section Ordered

variable {M start hi lo : Nat} {as : List (Option Nat)}

theorem Ordered.anti {lo' : Nat} (hlo : lo' ≤ lo) (h : Ordered M start hi lo as) :
    Ordered M start hi lo' as := by
  fun_induction Ordered M start hi lo as with
  | case1 => trivial
  | case2 lo as ih => exact ih hlo h
  | case3 lo t as ih =>
    obtain ⟨n, ht, hn, hhi, has⟩ := h
    exact ⟨n, ht, by omega, hhi, has⟩

theorem Ordered.mono {hi' : Nat} (hhi : hi ≤ hi') (h : Ordered M start hi lo as) :
    Ordered M start hi' lo as := by
  fun_induction Ordered M start hi lo as with
  | case1 => trivial
  | case2 lo as ih => exact ih h
  | case3 lo t as ih =>
    obtain ⟨n, ht, hn, hle, has⟩ := h
    exact ⟨n, ht, hn, by omega, ih n has⟩

theorem Ordered.sublist {as' : List (Option Nat)} (hs : as'.Sublist as)
    (h : Ordered M start hi lo as) : Ordered M start hi lo as' := by
  induction hs generalizing lo with
  | slnil => trivial
  | cons a _ ih =>
    cases a with
    | none => exact ih h
    | some t =>
      obtain ⟨n, -, hn, -, has⟩ := h
      exact (ih has).anti hn
  | cons_cons a _ ih =>
    cases a with
    | none => exact ih h
    | some t =>
      obtain ⟨n, ht, hn, hle, has⟩ := h
      exact ⟨n, ht, hn, hle, ih has⟩

theorem Ordered.spoil {l₁ l₂ : List (Option Nat)} {x : Option Nat}
    (h : Ordered M start hi lo (l₁ ++ x :: l₂)) : Ordered M start hi lo (l₁ ++ none :: l₂) := by
  induction l₁ generalizing lo with
  | nil =>
    show Ordered M start hi lo l₂
    exact Ordered.sublist (sublist_cons_self x l₂) h
  | cons a l₁ ih =>
    cases a with
    | none => exact ih h
    | some t =>
      obtain ⟨n, ht, hn, hle, has⟩ := h
      exact ⟨n, ht, hn, hle, ih has⟩

/-- A new acknowledgement carries the upper bound. -/
theorem Ordered.snoc (hlo : lo ≤ hi) (h : Ordered M start hi lo as) :
    Ordered M start hi lo (as ++ [some (tag M start hi)]) := by
  fun_induction Ordered M start hi lo as with
  | case1 => exact ⟨hi, rfl, hlo, le_refl hi, trivial⟩
  | case2 lo as ih => exact ih hlo h
  | case3 lo t as ih =>
    obtain ⟨n, ht, hn, hle, has⟩ := h
    exact ⟨n, ht, hn, hle, ih n hle has⟩

end Ordered

/-! ## The protocol -/

/-- The invariant of the protocol. -/
structure Inv (M W start : Nat) (s : State β) : Prop where
  delivered : s.delivered <+: s.sent
  acked : s.acked ≤ s.delivered.length
  window : s.sent.length ≤ s.acked + W
  data : Fresh M W start s.sent s.delivered.length s.data
  acks : Ordered M start s.delivered.length s.acked s.acks

theorem inv_init (M W start : Nat) : Inv M W start ({} : State β) :=
  ⟨prefix_rfl, le_refl 0, Nat.zero_le _, trivial, trivial⟩

variable {M W start : Nat} {s s' : State β}

/-- An acknowledged number is at most `W` ahead, so it is read back right. -/
theorem Inv.learned (hWM : W < M) (hs : Inv M W start s) {k : Nat} (hk : k < M)
    {as : List (Option Nat)} (h : s.acks = some (tag M start (s.acked + k)) :: as) :
    s.acked + k ≤ s.delivered.length ∧ Ordered M start s.delivered.length (s.acked + k) as := by
  have hord := hs.acks
  have hle := hs.delivered.length_le
  have hwin := hs.window
  rw [h] at hord
  obtain ⟨n, ht, hn, hhi, has⟩ := hord
  obtain rfl : s.acked + k = n := tag_inj ht (by omega) (by omega)
  exact ⟨hhi, has⟩

/-- **SAFETY OF ONE STEP**. -/
theorem Inv.step (hW : 0 < W) (hWM : W < M) (hs : Inv M W start s) (h : Step M W start s s') :
    Inv M W start s' := by
  have hle := hs.delivered.length_le
  have hacked := hs.acked
  have hwin := hs.window
  cases h with
  | send b hroom =>
    have hfresh : Fresh M W start (s.sent ++ [b]) (s.sent ++ [b]).length
        [some (tag M start s.sent.length, b)] := by
      refine ⟨s.sent.length, getElem?_concat_length, rfl, ?_, trivial⟩
      rw [length_append, length_singleton]
      omega
    refine ⟨hs.delivered.trans (prefix_append ..), hs.acked, ?_, ?_, hs.acks⟩
    · show (s.sent ++ [b]).length ≤ s.acked + W
      rw [length_append, length_singleton]
      omega
    · refine (hs.data.extend [b]).append ?_ hfresh
      rw [length_append]
      omega
  | resend => exact { hs with data := hs.data.append hle (fresh_numbered rfl hs.window) }
  | loseData ds hsub => exact { hs with data := hs.data.sublist hsub }
  | spoilData l₁ l₂ x hdata =>
    have hfresh := hs.data
    rw [hdata] at hfresh
    exact { hs with data := hfresh.spoil }
  | accept b ds hdata =>
    have hfresh := hs.data
    rw [hdata] at hfresh
    obtain ⟨i, hi, ht, hw, hds⟩ := hfresh
    have hlt := (List.getElem?_eq_some_iff.mp hi).1
    -- the copy's number is within `W` of the expected one on both sides
    obtain rfl : s.delivered.length = i := tag_inj ht (by omega) (by omega)
    refine ⟨?_, ?_, hs.window, ?_, hs.acks.mono ?_⟩
    · obtain ⟨rest, hrest⟩ := hs.delivered
      rw [← hrest, getElem?_append_right (le_refl _), Nat.sub_self] at hi
      cases rest with
      | nil => exact nomatch hi
      | cons c rest =>
        obtain rfl : c = b := Option.some.inj hi
        exact ⟨rest, by rw [← hrest, append_assoc]; rfl⟩
    · show s.acked ≤ (s.delivered ++ [b]).length
      rw [length_append]
      omega
    · rw [hdata, length_append, length_singleton]
      refine ⟨s.delivered.length, hi, rfl, by omega, ?_⟩
      rw [max_self]
      rw [max_eq_right (Nat.le_succ _)] at hds
      exact hds
    · rw [length_append]
      omega
  | ack => exact { hs with acks := hs.acks.snoc hs.acked }
  | loseAcks as hsub => exact { hs with acks := hs.acks.sublist hsub }
  | spoilAck l₁ l₂ x hacks =>
    have hord := hs.acks
    rw [hacks] at hord
    exact { hs with acks := hord.spoil }
  | learn k as hk hacks =>
    obtain ⟨hhi, has⟩ := hs.learned hWM hk hacks
    refine ⟨hs.delivered, hhi, ?_, hs.data, has⟩
    show s.sent.length ≤ s.acked + k + W
    omega

/-- **SAFETY OF A RUN**. -/
theorem Inv.run (hW : 0 < W) (hWM : W < M) (hs : Inv M W start s)
    (h : Relation.ReflTransGen (Step M W start) s s') : Inv M W start s' := by
  induction h with
  | refl => exact hs
  | tail _ hstep ih => exact ih.step hW hWM hstep

end Window
