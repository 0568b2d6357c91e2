import Mathlib

/-! # Framers

A framer looks at the front of a buffer.  It waits for more items, or it takes
some, changes its state and puts something out.  What it puts out may depend on
how much of the stream is in the buffer when it looks.

`Resumes` is what makes it independent of that: a step on a part of the buffer,
and then the whole of the rest, give what the whole buffer gives.  A framer that
resumes puts out the same in every run of reads and calls (`Resumes.runs`). -/

/-- The step of a framer: `none` is waiting, otherwise the new state, the number of
    items that are taken (at least one) and what is put out. -/
structure Framer (σ α β : Type) where
  step : σ → List α → Option (σ × ℕ × List β)
  taken : ∀ {s b s' n out}, step s b = some (s', n, out) → 0 < n ∧ n ≤ b.length

namespace Framer

open List

/-- A state, what is left in the buffer and what was put out. -/
structure Left (σ α β : Type) where
  state : σ
  buf : List α
  out : List β

variable {σ α β : Type} (f : Framer σ α β)

/-! ## Stepping until it waits -/

/-- At most `fuel` steps. -/
def drain : ℕ → σ → List α → Left σ α β
  | 0, s, b => ⟨s, b, []⟩
  | fuel + 1, s, b =>
    match f.step s b with
    | none => ⟨s, b, []⟩
    | some (s', n, out) =>
      let left := drain fuel s' (b.drop n)
      { left with out := out ++ left.out }

/-- Steps until the framer waits; each takes an item. -/
def runAll (s : σ) (b : List α) : Left σ α β := drain f b.length s b

variable {f}

theorem step_nil (s : σ) : f.step s [] = none := by
  cases h : f.step s [] with
  | none => rfl
  | some r =>
    obtain ⟨hpos, hle⟩ := f.taken h
    rw [length_nil] at hle
    omega

variable {s s' : σ} {b : List α} {n : ℕ} {out : List β}

/-- More steps than items make no difference. -/
theorem drain_of_le {fuel : ℕ} (h : b.length ≤ fuel) : drain f fuel s b = runAll f s b := by
  rw [runAll]
  -- both fuels are large enough, which the induction keeps
  suffices hboth : ∀ m n (s : σ) (b : List α), b.length ≤ m → b.length ≤ n →
      drain f m s b = drain f n s b from hboth fuel b.length s b h (le_refl _)
  intro m
  induction m with
  | zero =>
    intro n s b hm _
    obtain rfl : b = [] := length_eq_zero_iff.mp (by omega)
    cases n with
    | zero => rfl
    | succ n => rw [drain, drain, step_nil]
  | succ m ih =>
    intro n s b hm hn
    cases n with
    | zero =>
      obtain rfl : b = [] := length_eq_zero_iff.mp (by omega)
      rw [drain, drain, step_nil]
    | succ n =>
      rw [drain, drain]
      cases hstep : f.step s b with
      | none => rfl
      | some r =>
        obtain ⟨s', taken, out⟩ := r
        obtain ⟨hpos, -⟩ := f.taken hstep
        have hlen : (b.drop taken).length = b.length - taken := length_drop
        dsimp only
        rw [ih n s' (b.drop taken) (by omega) (by omega)]

theorem runAll_none (h : f.step s b = none) : runAll f s b = ⟨s, b, []⟩ := by
  rw [runAll]
  cases b.length with
  | zero => rfl
  | succ n => rw [drain, h]

theorem runAll_some (h : f.step s b = some (s', n, out)) :
    runAll f s b = { runAll f s' (b.drop n) with out := out ++ (runAll f s' (b.drop n)).out } := by
  obtain ⟨hpos, hle⟩ := f.taken h
  have hlen : (b.drop n).length = b.length - n := length_drop
  obtain ⟨fuel, hfuel⟩ : ∃ fuel, b.length = fuel + 1 := ⟨b.length - 1, by omega⟩
  rw [runAll, hfuel, drain, h]
  dsimp only
  rw [drain_of_le (by omega)]

/-- **AT THE END IT WAITS**. -/
theorem step_runAll (s : σ) (b : List α) :
    f.step (runAll f s b).state (runAll f s b).buf = none := by
  induction hlen : b.length using Nat.strongRecOn generalizing s b with
  | ind len ih =>
    cases h : f.step s b with
    | none => rw [runAll_none h]; exact h
    | some r =>
      obtain ⟨s', n, out⟩ := r
      obtain ⟨hpos, hle⟩ := f.taken h
      rw [runAll_some h]
      exact ih (b.drop n).length (by rw [length_drop]; omega) _ _ rfl

/-! ## Reads and calls -/

/-- What happens to the buffer: items are read into it, or the framer is called on
    its first `seen` items. -/
inductive Act (α : Type) where
  | read (items : List α)
  | call (seen : ℕ)

/-- All that is read. -/
def received (acts : List (Act α)) : List α :=
  acts.flatMap fun
    | .read items => items
    | .call _ => []

variable (f) in
/-- One act. -/
def act (s : σ) (b : List α) : Act α → Left σ α β
  | .read items => ⟨s, b ++ items, []⟩
  | .call seen =>
    match f.step s (b.take seen) with
    | none => ⟨s, b, []⟩
    | some (s', n, out) => ⟨s', b.drop n, out⟩

variable (f) in
/-- A run of acts. -/
def runs (s : σ) (b : List α) : List (Act α) → Left σ α β
  | [] => ⟨s, b, []⟩
  | a :: acts =>
    let next := act f s b a
    let left := runs next.state next.buf acts
    { left with out := next.out ++ left.out }

theorem runs_cons (s : σ) (b : List α) (a : Act α) (acts : List (Act α)) :
    runs f s b (a :: acts) =
      { runs f (act f s b a).state (act f s b a).buf acts with
        out := (act f s b a).out ++ (runs f (act f s b a).state (act f s b a).buf acts).out } :=
  rfl

theorem runs_append (s : σ) (b : List α) (acts more : List (Act α)) :
    runs f s b (acts ++ more) =
      { runs f (runs f s b acts).state (runs f s b acts).buf more with
        out := (runs f s b acts).out ++
          (runs f (runs f s b acts).state (runs f s b acts).buf more).out } := by
  induction acts generalizing s b with
  | nil => rfl
  | cons a acts ih =>
    rw [cons_append, runs_cons, ih, runs_cons]
    dsimp only
    rw [append_assoc]

/-- Enough calls that see the whole buffer are steps until the framer waits. -/
theorem runs_calls {seen : ℕ} (hn : b.length ≤ n) (hseen : b.length ≤ seen) :
    runs f s b (List.replicate n (.call seen)) = runAll f s b := by
  rw [← drain_of_le hn]
  induction n generalizing s b with
  | zero => rfl
  | succ n ih =>
    rw [replicate_succ, runs_cons, act, drain, take_of_length_le hseen]
    cases h : f.step s b with
    | none =>
      -- the remaining calls find nothing either
      have hwait : ∀ m, runs f s b (List.replicate m (.call seen)) = ⟨s, b, []⟩ := by
        intro m
        induction m with
        | zero => rfl
        | succ m ihm =>
          rw [replicate_succ, runs_cons, act, take_of_length_le hseen, h]
          dsimp only
          rw [ihm]
          rfl
      dsimp only
      rw [hwait]
      rfl
    | some r =>
      obtain ⟨s', taken, out⟩ := r
      obtain ⟨hpos, -⟩ := f.taken h
      have hlen : (b.drop taken).length = b.length - taken := length_drop
      dsimp only
      rw [ih (by omega) (by omega)]

variable (f) in
/-- A step on a part of the stream loses nothing of what the whole of it gives. -/
def Resumes : Prop :=
  ∀ {s : σ} {b : List α} {s' : σ} {n : ℕ} {out : List β} (x : List α),
    f.step s b = some (s', n, out) →
      (runAll f s (b ++ x)).out = out ++ (runAll f s' ((b ++ x).drop n)).out

/-- A step that more items do not change. -/
theorem out_of_stable {x : List α} (h : f.step s (b ++ x) = some (s', n, out)) :
    (runAll f s (b ++ x)).out = out ++ (runAll f s' ((b ++ x).drop n)).out := by
  rw [runAll_some h]

/-- A step that takes everything, and that more items only continue. -/
theorem out_of_continued {x : List α}
    (h : f.step s (b ++ x) = (f.step s' x).map fun r => (r.1, b.length + r.2.1, out ++ r.2.2))
    (hsome : (f.step s' x).isSome) : (runAll f s (b ++ x)).out = out ++ (runAll f s' x).out := by
  obtain ⟨⟨t, n, more⟩, hstep⟩ := Option.isSome_iff_exists.mp hsome
  rw [hstep, Option.map_some] at h
  rw [runAll_some h, runAll_some hstep]
  dsimp only
  rw [drop_length_add_append, append_assoc]

/-- Stepping until it waits may be interrupted by a read. -/
theorem Resumes.runAll_append (hf : Resumes f) (s : σ) (b x : List α) :
    (runAll f s (b ++ x)).out = (runAll f s b).out ++
      (runAll f (runAll f s b).state ((runAll f s b).buf ++ x)).out := by
  induction hlen : b.length using Nat.strongRecOn generalizing s b with
  | ind len ih =>
    cases h : f.step s b with
    | none => rw [runAll_none h, nil_append]
    | some r =>
      obtain ⟨s', n, out⟩ := r
      obtain ⟨hpos, hle⟩ := f.taken h
      have hrest := ih (b.drop n).length (by rw [length_drop]; omega) s' (b.drop n) rfl
      rw [hf x h, runAll_some h, drop_append_of_le_length hle, hrest, append_assoc]

/-- **THE SAME IN EVERY RUN**: what a run has put out, with what the framer makes of the buffer
    it leaves, is what it makes of all that was read, at once. -/
theorem Resumes.runs (hf : Resumes f) (acts : List (Act α)) (s : σ) (b : List α) :
    (Framer.runs f s b acts).out ++
        (runAll f (Framer.runs f s b acts).state (Framer.runs f s b acts).buf).out =
      (runAll f s (b ++ received acts)).out := by
  induction acts generalizing s b with
  | nil =>
    show [] ++ (runAll f s b).out = (runAll f s (b ++ [])).out
    rw [append_nil, nil_append]
  | cons a acts ih =>
    have hrest := ih (act f s b a).state (act f s b a).buf
    rw [runs_cons]
    dsimp only
    rw [append_assoc, hrest]
    cases a with
    | read items =>
      show (runAll f s (b ++ items ++ received acts)).out =
        (runAll f s (b ++ (items ++ received acts))).out
      rw [append_assoc]
    | call seen =>
      show _ = (runAll f s (b ++ received acts)).out
      rw [act]
      cases hstep : f.step s (b.take seen) with
      | none => rfl
      | some r =>
        obtain ⟨s', n, out⟩ := r
        obtain ⟨-, hle⟩ := f.taken hstep
        -- the items that are not seen are still to come
        have hall := hf (b.drop seen ++ received acts) hstep
        rw [← append_assoc, take_append_drop] at hall
        rw [hall, drop_append_of_le_length (le_trans hle (length_take_le' _ _))]

/-- Two runs that read the same and end waiting put out the same. -/
theorem Resumes.runs_eq (hf : Resumes f) {acts acts' : List (Act α)}
    (hread : received acts = received acts')
    (hend : f.step (Framer.runs f s b acts).state (Framer.runs f s b acts).buf = none)
    (hend' : f.step (Framer.runs f s b acts').state (Framer.runs f s b acts').buf =
      none) :
    (Framer.runs f s b acts).out = (Framer.runs f s b acts').out := by
  have hout := hf.runs acts s b
  have hout' := hf.runs acts' s b
  rw [runAll_none hend, append_nil] at hout
  rw [runAll_none hend', append_nil] at hout'
  rw [hout, hout', hread]

end Framer

/-! # Splitting a stream that comes in chunks

Each chunk is split by itself, and its first piece is put behind the last piece of
what came before.  The pieces are those of the whole stream. -/

namespace Split

variable {α : Type*} [BEq α] {sep : α} {left xs ys : List α}

/-- The pieces of a chunk, the first of them behind what was left. -/
def pieces (sep : α) (left chunk : List α) : List (List α) :=
  (chunk.splitOn sep).modifyHead (left ++ ·)

theorem pieces_ne_nil : pieces sep left ys ≠ [] := by
  rw [pieces, ne_eq, List.modifyHead_eq_nil_iff]
  exact List.splitOn_ne_nil _ _

/-- **THE PIECES OF A STREAM** and of a chunk behind it. -/
theorem splitOn_append (sep : α) (xs ys : List α) :
    (xs ++ ys).splitOn sep =
      (xs.splitOn sep).dropLast ++ pieces sep ((xs.splitOn sep).getLastD []) ys := by
  induction xs with
  | nil =>
    show ys.splitOn sep = (ys.splitOn sep).modifyHead id
    rw [List.modifyHead_id]
    rfl
  | cons x xs ih =>
    rw [List.cons_append, List.splitOn_cons_eq_if_modifyHead,
      List.splitOn_cons_eq_if_modifyHead, ih]
    obtain ⟨q, qs, hpieces⟩ := List.exists_cons_of_ne_nil (List.splitOn_ne_nil sep xs)
    rw [hpieces]
    split
    · rfl
    · cases qs with
      | nil => exact List.modifyHead_modifyHead
      | cons r qs => rfl

end Split
