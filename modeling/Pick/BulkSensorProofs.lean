import Pick.WordProofs

/-! # Sequence numbers of bulk sensors (`klippy/extras/bulk_sensor.py`, `src/sensor_bulk.c`)

A block carries 16 bits of its number.  The host extends them by the distance from the
number it was last told: forward for a status, both ways for a block. -/

namespace BulkSensor

/-! ## Model -/

/-- A block: `sensor_bulk_data`. -/
structure Block where
  sequence : UInt16
  data : List UInt8

/-- The sensor, the blocks it has sent since its reset, and the reader.  `queried` is the
    number of blocks at the last status query. -/
structure Session where
  sequence : UInt16
  sent : List Block
  lastSequence : ℤ
  queried : ℕ

/-- `sensor_bulk_reset` and `note_start`. -/
def Session.reset : Session := ⟨0, [], 0, 0⟩

/-- `sensor_bulk_report`. -/
def Session.report (s : Session) (data : List UInt8) : Session :=
  { s with sequence := s.sequence + 1, sent := s.sent ++ [⟨s.sequence, data⟩] }

/-- `_update_clock`. -/
def Session.updateClock (s : Session) : Session :=
  { s with
    lastSequence := s.lastSequence + (s.sequence.toNat - s.lastSequence) % 2 ^ 16
    queried := s.sent.length }

/-- The number `pull_samples` gives a block. -/
def Session.extend (s : Session) (sequence : UInt16) : ℤ :=
  let seqDiff := ((sequence.toNat - s.lastSequence) % 2 ^ 16).toNat
  s.lastSequence + (seqDiff - ((seqDiff &&& 0x8000) <<< 1 : ℕ))

/-- The samples of a block with the number of the first. -/
def samples (bytesPerSample : ℕ) (first : ℤ) (data : List UInt8) : List (ℤ × List UInt8) :=
  (List.range (data.length / bytesPerSample)).map fun i : ℕ =>
    (first + i, (data.drop (i * bytesPerSample)).take bytesPerSample)

/-- `pull_samples`, with the number that the time of a sample is computed from. -/
def Session.pullSamples (s : Session) (bytesPerSample : ℕ) (raw : List Block) :
    List (ℤ × List UInt8) :=
  raw.flatMap fun b =>
    samples bytesPerSample (s.extend b.sequence * (51 / bytesPerSample : ℕ)) b.data

/-- Fewer than 2^16 blocks are sent between two queries. -/
inductive Step : Session → Session → Prop where
  | report (s : Session) (data : List UInt8) : Step s (s.report data)
  | query (s : Session) (h : s.sent.length < s.queried + 2 ^ 16) : Step s s.updateClock

/-! ## Numbers -/

/-- What holds in every session. -/
structure Session.Inv (s : Session) : Prop where
  sequence : s.sequence = UInt16.ofNat s.sent.length
  numbered : ∀ n b, s.sent[n]? = some b → b.sequence = UInt16.ofNat n
  lastSequence : s.lastSequence = s.queried
  queried : s.queried ≤ s.sent.length

variable {s s' : Session} {n : ℕ}

theorem Session.Inv.step (h : s.Inv) (hstep : Step s s') : s'.Inv := by
  cases hstep with
  | report data =>
    refine ⟨?_, fun n b hb => ?_, h.lastSequence, ?_⟩
    · simp [Session.report, h.sequence]
    · rw [Session.report, List.getElem?_append] at hb
      split at hb
      · exact h.numbered n b hb
      · rw [List.getElem?_singleton] at hb
        split at hb
        · obtain rfl : n = s.sent.length := by omega
          cases hb
          exact h.sequence
        · cases hb
    · rw [Session.report, List.length_append]
      exact h.queried.trans (Nat.le_add_right ..)
  | query hlt =>
    refine ⟨h.sequence, h.numbered, ?_, le_rfl⟩
    have hle := h.queried
    simp only [Session.updateClock, h.lastSequence, h.sequence, UInt16.toNat_ofNat']
    omega

theorem inv_of_run (hrun : Relation.ReflTransGen Step .reset s) : s.Inv := by
  induction hrun with
  | refl => exact ⟨rfl, nofun, rfl, le_rfl⟩
  | tail _ hstep ih => exact ih.step hstep

/-- The number of a block that is less than 2^15 ahead and at most 2^15 behind. -/
theorem Session.Inv.extend (h : s.Inv) (hge : s.queried ≤ n + 2 ^ 15)
    (hlt : n < s.queried + 2 ^ 15) : s.extend (.ofNat n) = n := by
  rw [Session.extend, h.lastSequence, UInt16.toNat_ofNat',
    show 0x8000 = 2 ^ 15 from rfl, Words.and_two_pow_of_lt (by omega)]
  split <;> omega

/-- **BLOCKS ARE NUMBERED RIGHT**: the samples of all blocks that are near the last query. -/
theorem pullSamples_numbered (hrun : Relation.ReflTransGen Step .reset s)
    (bytesPerSample : ℕ) {raw : List (ℕ × Block)}
    (hraw : ∀ x ∈ raw, s.sent[x.1]? = some x.2 ∧
      s.queried ≤ x.1 + 2 ^ 15 ∧ x.1 < s.queried + 2 ^ 15) :
    s.pullSamples bytesPerSample (raw.map Prod.snd) = raw.flatMap fun x =>
      samples bytesPerSample (x.1 * (51 / bytesPerSample) : ℕ) x.2.data := by
  have hinv := inv_of_run hrun
  rw [Session.pullSamples, List.flatMap_map]
  refine List.flatMap_congr fun x hx => ?_
  obtain ⟨hget, hge, hlt⟩ := hraw x hx
  rw [hinv.numbered _ _ hget, hinv.extend hge hlt, Nat.cast_mul]

/-- Sessions with any number of blocks and no query. -/
theorem exists_unqueried (n : ℕ) :
    ∃ s : Session, Relation.ReflTransGen Step .reset s ∧ s.sent.length = n ∧ s.queried = 0 := by
  induction n with
  | zero => exact ⟨.reset, .refl, rfl, rfl⟩
  | succ n ih =>
    obtain ⟨s, hrun, hlen, hqueried⟩ := ih
    exact ⟨s.report [1, 2, 3], hrun.tail (.report ..), by simp [Session.report, hlen], hqueried⟩

/-- Two blocks behind the query at the block before: the number of the second is 2^16, and
    its 16 bits are zero.  Three bytes a sample, so 17 samples a block. -/
theorem pullSamples_numbered_wrap : ∃ s : Session, Relation.ReflTransGen Step .reset s ∧
    s.queried = 65535 ∧ s.pullSamples 3 [⟨65535, [1, 2, 3]⟩, ⟨0, [4, 5, 6, 7, 8, 9]⟩] =
      [(1114095, [1, 2, 3]), (1114112, [4, 5, 6]), (1114113, [7, 8, 9])] := by
  obtain ⟨s, hrun, hlen, hqueried⟩ := exists_unqueried 65535
  have hrun' := ((hrun.tail (.query s (by omega))).tail (.report _ [1, 2, 3])).tail
    (.report _ [4, 5, 6, 7, 8, 9])
  refine ⟨_, hrun', hlen, @pullSamples_numbered _ hrun' 3
    [(65535, ⟨65535, [1, 2, 3]⟩), (65536, ⟨0, [4, 5, 6, 7, 8, 9]⟩)] ?_⟩
  have hseq : s.sequence = 65535 := by rw [(inv_of_run hrun).sequence, hlen]; rfl
  simp [Session.report, Session.updateClock, hlen, hseq]

/-- **A BLOCK 2^15 AHEAD** is taken for one that far behind. -/
theorem block_far_ahead : ∃ s : Session, Relation.ReflTransGen Step .reset s ∧
    2 ^ 15 < s.sent.length ∧ s.queried = 0 ∧ s.extend (.ofNat (2 ^ 15)) = -2 ^ 15 := by
  obtain ⟨s, hrun, hlen, hqueried⟩ := exists_unqueried (2 ^ 15 + 1)
  refine ⟨s, hrun, by omega, hqueried, ?_⟩
  rw [Session.extend, (inv_of_run hrun).lastSequence, hqueried]
  decide

end BulkSensor
