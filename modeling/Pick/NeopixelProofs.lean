import Mathlib

/-! # The updates of an LED chain

`send_data` of `neopixel.py` looks for the bytes that changed, joins changes
that are close to each other from the last one to the first, and sends the
ranges that remain.  The loop is a recursion over the changes, which keeps
that the ranges cover every change (`Covers`). -/

namespace Neopixel

open List

/-- `diffs`: the positions of all changed bytes from `i` on, each a range of one byte. -/
def changes : Nat → List UInt8 → List UInt8 → List (Nat × Nat)
  | i, n :: newData, o :: oldData =>
    if n ≠ o then (i, 1) :: changes (i + 1) newData oldData
    else changes (i + 1) newData oldData
  | _, _, _ => []

/-- The first two ranges, joined if they are close. -/
def join : List (Nat × Nat) → List (Nat × Nat)
  | (pos, count) :: (nextpos, nextcount) :: diffs =>
    if pos + 5 ≥ nextpos ∧ nextcount < 16 then
      (pos, nextcount + (nextpos - pos)) :: diffs
    else (pos, count) :: (nextpos, nextcount) :: diffs
  | diffs => diffs

/-- A turn of the loop: `diffs[i]` and `diffs[i+1]` may become one. -/
def joinAt (i : Nat) (diffs : List (Nat × Nat)) : List (Nat × Nat) :=
  diffs.take i ++ join (diffs.drop i)

/-- The loop, which goes from `len(diffs)-2` down to `0`. -/
def batch (diffs : List (Nat × Nat)) : List (Nat × Nat) :=
  (List.range (diffs.length - 1)).foldr joinAt diffs

/-- `new_data[pos:pos+count]`, with its position. -/
def slice (newData : List UInt8) : Nat × Nat → Nat × List UInt8
  | (pos, count) => (pos, (newData.drop pos).take count)

/-- The messages of `send_data`: positions, and the bytes for them. -/
def sendData (newData oldData : List UInt8) : List (Nat × List UInt8) :=
  if newData = oldData then []
  else (batch (changes 0 newData oldData)).map (slice newData)

/-- The `memcpy` of `command_neopixel_update`. -/
def update (data : List UInt8) : Nat × List UInt8 → List UInt8
  | (pos, bytes) => data.take pos ++ bytes ++ data.drop (pos + bytes.length)

variable {newData oldData : List UInt8} {a : Nat} {diffs : List (Nat × Nat)}

/-! ## The loop -/

theorem foldr_joinAt (front back : List (Nat × Nat)) :
    (List.range front.length).foldr joinAt (front ++ back)
      = front.foldr (fun d diffs => join (d :: diffs)) back := by
  induction front using List.reverseRecOn generalizing back with
  | nil => rfl
  | append_singleton front d ih =>
    have hturn : joinAt front.length (front ++ [d] ++ back) = front ++ join (d :: back) := by
      rw [joinAt, append_assoc, take_left, drop_left]
      rfl
    rw [length_append, length_singleton, range_succ, foldr_append, foldr_append]
    show List.foldr joinAt (joinAt front.length (front ++ [d] ++ back)) _ = _
    rw [hturn, ih]
    rfl

theorem batch_eq (diffs : List (Nat × Nat)) :
    batch diffs = diffs.foldr (fun d diffs => join (d :: diffs)) [] := by
  obtain rfl | ⟨front, d, rfl⟩ := eq_nil_or_concat' diffs
  · rfl
  · rw [batch, length_append, length_singleton, Nat.add_sub_cancel, foldr_joinAt, foldr_append]
    rfl

/-! ## What the ranges cover -/

/-- The buffer with the new bytes up to a position. -/
def upTo (newData oldData : List UInt8) (a : Nat) : List UInt8 := newData.take a ++ oldData.drop a

/-- From `a` on, every change is in one of the ranges, which are in order. -/
def Covers (newData oldData : List UInt8) : Nat → List (Nat × Nat) → Prop
  | a, [] => upTo newData oldData a = newData
  | a, (pos, count) :: diffs =>
    a ≤ pos ∧ upTo newData oldData pos = upTo newData oldData a ∧ 1 ≤ count ∧
      count ≤ 20 ∧ pos + count ≤ newData.length ∧
      Covers newData oldData (pos + count) diffs

theorem Covers.join (h : Covers newData oldData a diffs) :
    Covers newData oldData a (join diffs) := by
  unfold Neopixel.join
  split
  · split
    · rename_i pos count nextpos nextcount diffs hclose
      obtain ⟨hle, hsame, hpos, -, -, hnext, -, hcount, -, hin, hrest⟩ := h
      have hend : pos + (nextcount + (nextpos - pos)) = nextpos + nextcount := by omega
      refine ⟨hle, hsame, by omega, by omega, ?_, ?_⟩
      · rw [hend]
        exact hin
      · rw [hend]
        exact hrest
    · exact h
  · exact h

theorem Covers.of_upTo (h : Covers newData oldData (a + 1) diffs)
    (hsame : upTo newData oldData (a + 1) = upTo newData oldData a) :
    Covers newData oldData a diffs := by
  cases diffs with
  | nil => exact hsame.symm.trans h
  | cons d diffs =>
    obtain ⟨hle, hupTo, hrest⟩ := h
    exact ⟨Nat.le_of_succ_le hle, hupTo.trans hsame, hrest⟩

theorem drop_succ {l rest : List UInt8} {x : UInt8} (h : l.drop a = x :: rest) :
    l.drop (a + 1) = rest := by
  rw [← drop_drop, h, drop_one, tail_cons]

/-- The loop's ranges cover the changes from a position on. -/
theorem covers_changes {ns os : List UInt8} (hnew : newData.drop a = ns)
    (hold : oldData.drop a = os) (hlen : ns.length = os.length) :
    Covers newData oldData a
      ((changes a ns os).foldr (fun d diffs => Neopixel.join (d :: diffs)) []) := by
  induction ns generalizing os a with
  | nil =>
    cases length_eq_zero_iff.mp hlen.symm
    show newData.take a ++ oldData.drop a = newData
    rw [hold, ← hnew, take_append_drop]
  | cons n ns ih =>
    cases os with
    | nil => exact nomatch hlen
    | cons o os =>
      have hrest := ih (drop_succ hnew) (drop_succ hold) (Nat.succ.inj hlen)
      rw [changes]
      split
      · have hin : a + 1 ≤ newData.length := by
          have hpos := congrArg List.length hnew
          rw [length_drop, length_cons] at hpos
          omega
        exact Covers.join ⟨le_refl _, rfl, le_refl _, by omega, hin, hrest⟩
      · rename_i hsame
        cases not_not.mp hsame
        refine hrest.of_upTo ?_
        rw [upTo, upTo, take_add, hnew, hold, drop_succ hold, append_assoc]
        rfl

/-! ## The messages -/

theorem length_slice {pos count : Nat} (h : pos + count ≤ newData.length) :
    (slice newData (pos, count)).2.length = count := by
  rw [slice, length_take, length_drop]
  omega

theorem Covers.updates (h : Covers newData oldData a diffs) :
    (diffs.map (slice newData)).foldl update (upTo newData oldData a) = newData := by
  induction diffs generalizing a with
  | nil => exact h
  | cons d diffs ih =>
    obtain ⟨pos, count⟩ := d
    obtain ⟨-, hsame, -, -, hin, hrest⟩ := h
    have hpos : (newData.take pos).length = pos := by
      rw [length_take]
      omega
    have hcount := length_slice hin
    have hupdate : update (upTo newData oldData pos) (slice newData (pos, count))
        = upTo newData oldData (pos + count) := by
      rw [slice] at hcount ⊢
      rw [update, upTo, upTo, hcount, ← drop_drop, take_left' hpos,
        drop_left' hpos, drop_drop, take_add]
    rw [map_cons, foldl_cons, ← hsame, hupdate]
    exact ih hrest

theorem Covers.ranges (h : Covers newData oldData a diffs) :
    (∀ d ∈ diffs, a ≤ d.1 ∧ 1 ≤ d.2 ∧ d.2 ≤ 20 ∧ d.1 + d.2 ≤ newData.length) ∧
      diffs.Pairwise fun d d' => d.1 + d.2 ≤ d'.1 := by
  induction diffs generalizing a with
  | nil => exact ⟨forall_mem_nil _, .nil⟩
  | cons d diffs ih =>
    obtain ⟨hle, -, hone, htwenty, hin, hrest⟩ := h
    obtain ⟨hranges, hpairs⟩ := ih hrest
    refine ⟨forall_mem_cons.mpr ⟨⟨hle, hone, htwenty, hin⟩, ?_⟩,
      .cons (fun d' hd' => (hranges d' hd').1) hpairs⟩
    intro d' hd'
    have hd' := hranges d' hd'
    exact ⟨by omega, hd'.2⟩

/-- **THE UPDATES ARE COMPLETE**: they turn the old bytes into the new ones, in increasing
    ranges of 1 to 20 bytes that do not overlap. -/
theorem sendData_complete (h : newData.length = oldData.length) :
    (sendData newData oldData).foldl update oldData = newData ∧
      (sendData newData oldData).Pairwise (fun m m' => m.1 + m.2.length ≤ m'.1) ∧
      ∀ m ∈ sendData newData oldData, 1 ≤ m.2.length ∧ m.2.length ≤ 20 ∧
        m.1 + m.2.length ≤ newData.length := by
  rw [sendData]
  split
  · rename_i heq
    exact ⟨heq.symm, .nil, forall_mem_nil _⟩
  · have hcovers : Covers newData oldData 0 (batch (changes 0 newData oldData)) := by
      rw [batch_eq]
      exact covers_changes rfl rfl h
    obtain ⟨hranges, hpairs⟩ := hcovers.ranges
    refine ⟨hcovers.updates, pairwise_map.mpr (hpairs.imp ?_), forall_mem_map.mpr ?_⟩
    · rintro ⟨pos, count⟩ d' hle
      exact le_trans (Nat.add_le_add_left (length_take_le _ _) _) hle
    · rintro ⟨pos, count⟩ hd
      obtain ⟨-, hone, htwenty, hin⟩ := hranges _ hd
      rw [length_slice hin]
      exact ⟨hone, htwenty, hin⟩

/-- Two changes with a byte between them make one message. -/
theorem sendData_complete_joined :
    (sendData [1, 2, 3] [0, 2, 0]).foldl update [0, 2, 0] = [1, 2, 3] ∧
      (sendData [1, 2, 3] [0, 2, 0]).Pairwise (fun m m' => m.1 + m.2.length ≤ m'.1) ∧
      ∀ m ∈ sendData [1, 2, 3] [0, 2, 0], 1 ≤ m.2.length ∧ m.2.length ≤ 20 ∧ m.1 + m.2.length ≤ 3 :=
  sendData_complete rfl

end Neopixel
