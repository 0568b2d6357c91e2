import Pick.CameraProofs

/-! # Where vision says that things are (`klippy/extras/pnp_vision.py`)

`pinpoint_target` moves the camera back by the offset of a mark until it is over it.
`analyze_tape` finds the holes and pockets of a tape in one picture and keeps the
same offsets; `generate_feeder_config` adds them to the camera's position, where
`pinpoint_target` subtracts them. -/

namespace PnpVision

open Camera List

variable {K : Type} [Field K] [LinearOrder K]

/-! ## Centring a mark -/

/-- How `pinpoint_target` ends: whether it has converged, and where. -/
structure Pinpoint (K : Type) where
  success : Bool
  pos : Vec K
  deriving DecidableEq

/-- The loop of `pinpoint_target`; `detect` is the single mark that is found with
    the camera at a position. -/
def pinpointLoop (hypot : K → K → K) (cam : Cam K) (detect : Vec K → Vec K)
    (z accuracy : K) : ℕ → Vec K → Pinpoint K
  | 0, pos => ⟨false, pos⟩
  | tries + 1, pos =>
    let d := cam.pixelsToMmOffset (detect pos) z
    if hypot d.x d.y ≤ accuracy then ⟨true, pos⟩
    else pinpointLoop hypot cam detect z accuracy tries (pos.sub d)

/-! ## Tapes -/

/-- A circle or rectangle that is found in a picture. -/
abbrev Detection (K : Type) := Vec K

/-- A detection with its offset and its place along the tape. -/
structure Found (K : Type) where
  px : Detection K
  m : Vec K
  dist : K
  deriving DecidableEq

/-- The result of `analyze_tape` as `generate_feeder_config` uses it. -/
structure Tape (K : Type) where
  pockets : List (Found K)
  holes : List (Found K)
  angle : K
  z : K
  u : Vec K
  width : ℕ
  c0 : Vec K
  deriving DecidableEq

/-- `get_signed_area_2d`. -/
def getSignedArea2d (c0 c1 p : Vec K) : K :=
  (c1.x - c0.x) * (p.y - c0.y) - (c1.y - c0.y) * (p.x - c0.x)

/-- `EIA_481_F`. -/
def eia481F : ℕ → Option K
  | 8 => some (35 / 10)
  | 12 => some (55 / 10)
  | 16 => some (75 / 10)
  | 24 => some (115 / 10)
  | _ => none

/-- `EIA_481_F_fol`. -/
def eia481Ffol : ℕ → Option (K × K)
  | 8 => some (325 / 100, 375 / 100)
  | 12 => some (525 / 100, 575 / 100)
  | 16 => some (725 / 100, 775 / 100)
  | 24 => some (1125 / 100, 1175 / 100)
  | _ => none

section Tapes

variable [FloorSemiring K] (hypot atan2 : K → K → K) (cam : Cam K)

/-- `_seed_pitch_at_z`. -/
def seedPitchAtZ (c0 c1 : Detection K) (z : K) : K :=
  let p0 := cam.pixelsToMmOffset c0 z
  let p1 := cam.pixelsToMmOffset c1 z
  hypot (p1.x - p0.x) (p1.y - p0.y)

/-- The bisection of `_tune_z_to_pitch`. -/
def bisect (err : K → K) : ℕ → K → K → K → K
  | 0, a, b, _ => 1 / 2 * (a + b)
  | tries + 1, a, b, fa =>
    let m := 1 / 2 * (a + b)
    let fm := err m
    if |fm| < 1 / 10000 then m
    else if fa * fm ≤ 0 then bisect err tries a m fa
    else bisect err tries m b fm

/-- Its search in steps of 0.5 from `lo` to `hi`, when the bisection cannot start. -/
def scanZ (err : K → K) (lo hi bestZ bestE : K) : K :=
  let heights := (List.range (⌊(hi + 1 / 1000000000 - lo) * 2⌋₊ + 1)).map fun (k : ℕ) => lo + k / 2
  (heights.foldl (fun (best : K × K) z =>
    if |err z| < best.2 then (z, |err z|) else best) (bestZ, bestE)).1

/-- The height of `_tune_z_to_pitch`. -/
def tuneZToPitch (c0 c1 : Detection K) (zUsed nom : K) : K :=
  let p0 := seedPitchAtZ hypot cam c0 c1 zUsed
  if p0 < 2 / 10 ∨ nom ≤ 0 then zUsed
  else
    let (lo, hi) := match cam.pxPerMm with
      | some ((_, z₁), (_, z₂)) => (min z₁ z₂ - 10, max z₁ z₂ + 10)
      | none => (zUsed - 20, zUsed + 20)
    let err z := seedPitchAtZ hypot cam c0 c1 z - nom
    if err lo * err hi > 0 then scanZ err lo hi zUsed |p0 - nom|
    else bisect err 35 lo hi (err lo)

/-- The second seed hole: the first circle between 3 and 5 mm from `c0`, and the
    circles without it. -/
def findSeed (c0 : Vec K) (z : K) :
    List (Detection K) → Option (Detection K × List (Detection K))
  | [] => none
  | circle :: rest =>
    let m := cam.pixelsToMmOffset circle z
    let dist := hypot (c0.x - m.x) (c0.y - m.y)
    if 3 < dist ∧ dist < 5 then some (circle, rest)
    else (findSeed c0 z rest).map fun (c1, rest) => (c1, circle :: rest)

/-- The signed area of the seed pocket: the first rectangle at the right distance
    from the line of the holes. -/
def seedPocket (c0 c1 : Vec K) (base fmin fmax z : K) (rects : List (Detection K)) : Option K :=
  (rects.map fun rect => getSignedArea2d c0 c1 (cam.pixelsToMmOffset rect z)).find?
    fun area => fmin < |area / base| ∧ |area / base| < fmax

/-- The detection with its offset at `z`, along the tape from `c0` in the direction `u`. -/
def locate (c0 u : Vec K) (z : K) (px : Detection K) : Found K :=
  let m := cam.pixelsToMmOffset px z
  ⟨px, m, (m.x - c0.x) * u.x + (m.y - c0.y) * u.y⟩

/-- A stable sort by the place along the tape. -/
def sortByDist (items : List (Found K)) : List (Found K) :=
  items.insertionSort fun p q => p.dist ≤ q.dist

/-- `analyze_tape`: a tape, if one is found, and the circles and rectangles left; `none` if the
    width is unknown. -/
def analyzeTape (z : K) (circles rects : List (Detection K)) (width : ℕ) :
    Option (Option (Tape K) × List (Detection K) × List (Detection K)) :=
  (eia481Ffol width).map fun (fmin, fmax) =>
    match circles with
    | [] | [_] => (none, circles, rects)
    | px0 :: circles =>
      if rects.isEmpty then (none, px0 :: circles, rects)
      else match findSeed hypot cam (cam.pixelsToMmOffset px0 z) z circles with
      | none => (none, circles, rects)
      | some (px1, circles) =>
        let z := tuneZToPitch hypot cam px0 px1 z 4
        let m0 := cam.pixelsToMmOffset px0 z
        let m1 := cam.pixelsToMmOffset px1 z
        let base := hypot (m1.x - m0.x) (m1.y - m0.y)
        match seedPocket cam m0 m1 base fmin fmax z rects with
        | none => (none, circles, rects)
        | some area =>
          -- the tape runs such that its pockets are on the left
          let (px0, px1) := if area < 0 then (px1, px0) else (px0, px1)
          let c0 := cam.pixelsToMmOffset px0 z
          let c1 := cam.pixelsToMmOffset px1 z
          let base := hypot (c1.x - c0.x) (c1.y - c0.y)
          let u : Vec K := ⟨(c1.x - c0.x) / base, (c1.y - c0.y) / base⟩
          let h px := getSignedArea2d c0 c1 (cam.pixelsToMmOffset px z) / base
          let inline px := -(8 / 10) < h px ∧ h px < 8 / 10
          let pocket px := fmin < h px ∧ h px < fmax
          let holes := ⟨px0, c0, 0⟩ :: ⟨px1, c1, base⟩ ::
            (circles.filter inline).map (locate cam c0 u z)
          let pockets := (rects.filter pocket).map (locate cam c0 u z)
          (some
            { pockets := sortByDist pockets
              holes := sortByDist holes
              angle := atan2 u.x u.y
              z := z
              u := u
              width := width
              c0 := c0 },
            circles.filter (fun px => ¬ inline px),
            rects.filter fun px => ¬ pocket px ∧ ¬ inline px)

end Tapes

/-! ## Feeder configuration -/

/-- `_median_span`. -/
def medianSpan (items : List (Found K)) : Option K :=
  if items.length < 2 then none
  else
    let ds := (items.map Found.dist).insertionSort (· ≤ ·)
    let diffs := (ds.zipWith (fun d next => next - d) ds.tail).filter fun diff => diff > 4 / 10
    let s := diffs.insertionSort (· ≤ ·)
    let m := s.length / 2
    if s.isEmpty then none
    else if s.length % 2 = 1 then s[m]?
    else s[m - 1]?.bind fun p => s[m]?.map fun q => 1 / 2 * (p + q)

/-- The standard pocket pitch nearest to the measured one, the first of equals. -/
def snapPitch (measured : K) : K :=
  [4, 8, 12, 16].foldl (fun best g => if |g - measured| < |best - measured| then g else best) 2

/-- A pocket of the lattice; `hit` is the detected one it was matched with. -/
structure Extra (K : Type) where
  index : ℕ
  dist : K
  m : Vec K
  pos : Vec K
  hit : Option (Found K)
  deriving DecidableEq

/-- What `generate_feeder_config` prints and returns. -/
structure FeederConfig (K : Type) where
  extras : List (Extra K)
  pocket0 : Vec K
  hole0 : Option (Vec K)
  hole1 : Option (Vec K)
  deriving DecidableEq

/-- The `k`-th pocket. -/
def Tape.extra (tape : Tape K) (pos0 : Vec K) (d0 pk fNom : K) (k : ℕ) : Extra K :=
  let target := d0 + k * pk
  let hit := tape.pockets.find? fun p => |p.dist - target| < 8 / 10
  let m : Vec K := match hit with
    | some p => p.m
    | none =>
      ⟨tape.c0.x + target * tape.u.x + -tape.u.y * fNom,
        tape.c0.y + target * tape.u.y + tape.u.x * fNom⟩
  ⟨k, target, m, pos0.add m, hit⟩

/-- `generate_feeder_config`; `none` is an exception: an unknown width, no pitch (the code
    subtracts `None`) or no pocket asked for. -/
def generateFeederConfig (pos0 : Vec K) (tape : Tape K) (count : ℕ) :
    Option (FeederConfig K) := do
  let fNom ← eia481F tape.width
  let measured ← medianSpan tape.pockets
  let first ← tape.pockets.head?
  let pk := snapPitch measured
  let extras := (List.range count).map (tape.extra pos0 first.dist pk fNom)
  let pick ← extras.head?
  let hole i := if tape.holes.length ≥ 2 then
    tape.holes[i]?.map fun h => pos0.add h.m else none
  pure ⟨extras, pick.pos, hole 0, hole 1⟩

/-! ## Where a mark is reported -/

/-- A detected hole or pocket is reported at `q`: by `analyze_tape` through its
    offset, as a pocket of the configuration or as one of its two holes. -/
inductive Reports (pos0 : Vec K) (tape : Tape K) (cfg : FeederConfig K) :
    Detection K → Vec K → Prop where
  | hole (f : Found K) (hf : f ∈ tape.holes) : Reports pos0 tape cfg f.px (pos0.add f.m)
  | pocket (f : Found K) (hf : f ∈ tape.pockets) : Reports pos0 tape cfg f.px (pos0.add f.m)
  | extra (e : Extra K) (he : e ∈ cfg.extras) (f : Found K) (hf : e.hit = some f) :
      Reports pos0 tape cfg f.px e.pos
  | hole0 (f : Found K) (hf : tape.holes[0]? = some f) (q : Vec K)
      (hq : cfg.hole0 = some q) : Reports pos0 tape cfg f.px q
  | hole1 (f : Found K) (hf : tape.holes[1]? = some f) (q : Vec K)
      (hq : cfg.hole1 = some q) : Reports pos0 tape cfg f.px q

/-- The offset of a find is that of its pixel at the height of the tape. -/
def Located (cam : Cam K) (z : K) (f : Found K) : Prop := f.m = cam.pixelsToMmOffset f.px z

theorem located_locate {cam : Cam K} (c0 u : Vec K) (z : K) (items : List (Detection K)) :
    ∀ f ∈ items.map (locate cam c0 u z), Located cam z f :=
  forall_mem_map.mpr fun _ _ => rfl

theorem located_sort {cam : Cam K} {z : K} {items : List (Found K)}
    (h : ∀ f ∈ items, Located cam z f) : ∀ f ∈ sortByDist items, Located cam z f := fun f hf =>
  h f ((mem_insertionSort _).mp hf)

omit [Field K] in
theorem sortByDist_sorted (items : List (Found K)) :
    (sortByDist items).Pairwise fun p q => p.dist ≤ q.dist :=
  have : Std.Total fun p q : Found K => p.dist ≤ q.dist := ⟨fun _ _ => le_total _ _⟩
  have : IsTrans (Found K) fun p q => p.dist ≤ q.dist := ⟨fun _ _ _ => le_trans⟩
  pairwise_insertionSort _ _

section Reports

variable [FloorSemiring K] {hypot atan2 : K → K → K} {cam : Cam K} {z : K}
  {circles rects : List (Detection K)} {width : ℕ} {tape : Tape K} {pos0 : Vec K}
  {cfg : FeederConfig K} {count : ℕ}

/-- A tape has a known width and sorted pockets, and its finds have their offset at the height
    tuned. -/
theorem analyzeTape_some {left : List (Detection K) × List (Detection K)}
    (h : analyzeTape hypot atan2 cam z circles rects width = some (some tape, left)) :
    tape.width = width ∧ (∃ limits : K × K, eia481Ffol width = some limits) ∧
      (tape.pockets.Pairwise fun p q => p.dist ≤ q.dist) ∧
      (∀ f ∈ tape.holes, Located cam tape.z f) ∧ ∀ f ∈ tape.pockets, Located cam tape.z f := by
  obtain ⟨⟨fmin, fmax⟩, hwidth, h⟩ := Option.map_eq_some_iff.mp h
  dsimp only at h
  split at h
  · cases h
  · cases h
  · split at h
    · cases h
    · split at h
      · cases h
      · split at h
        · cases h
        · cases h
          refine ⟨rfl, ⟨_, hwidth⟩, sortByDist_sorted _, located_sort ?_,
            located_sort (located_locate _ _ _ _)⟩
          -- the two seeds and the circles in line with them
          exact forall_mem_cons.mpr ⟨rfl, forall_mem_cons.mpr ⟨rfl, located_locate _ _ _ _⟩⟩

omit [FloorSemiring K] in
/-- A pocket that is matched is reported by its offset. -/
theorem extra_hit {d0 pk fNom : K} {k : ℕ} {f : Found K}
    (h : (tape.extra pos0 d0 pk fNom k).hit = some f) :
    f ∈ tape.pockets ∧ (tape.extra pos0 d0 pk fNom k).pos = pos0.add f.m := by
  have hfind : tape.pockets.find? (fun p => |p.dist - (d0 + k * pk)| < 8 / 10) = some f := h
  refine ⟨mem_of_find?_eq_some hfind, ?_⟩
  rw [Tape.extra]
  dsimp only
  rw [hfind]

omit [FloorSemiring K] in
/-- Everything is reported at the camera's position and its offset. -/
theorem reports_eq {px q : Vec K} (hholes : ∀ f ∈ tape.holes, Located cam tape.z f)
    (hpockets : ∀ f ∈ tape.pockets, Located cam tape.z f)
    (hcfg : generateFeederConfig pos0 tape count = some cfg) (h : Reports pos0 tape cfg px q) :
    q = pos0.add (cam.pixelsToMmOffset px tape.z) := by
  obtain ⟨fNom, -, hcfg⟩ := Option.bind_eq_some_iff.mp hcfg
  obtain ⟨measured, -, hcfg⟩ := Option.bind_eq_some_iff.mp hcfg
  obtain ⟨first, -, hcfg⟩ := Option.bind_eq_some_iff.mp hcfg
  obtain ⟨pick, -, hcfg⟩ := Option.bind_eq_some_iff.mp hcfg
  cases hcfg
  have hhole : ∀ (i : ℕ) (f : Found K), tape.holes[i]? = some f →
      (if tape.holes.length ≥ 2 then tape.holes[i]?.map fun h => pos0.add h.m
        else none) = some q →
        q = pos0.add (cam.pixelsToMmOffset f.px tape.z) := by
    intro i f hf hq
    split at hq
    · rw [hf] at hq
      rw [← Option.some.inj hq]
      exact congrArg pos0.add (hholes f (mem_of_getElem? hf))
    · cases hq
  cases h with
  | hole f hf => rw [hholes f hf]
  | pocket f hf => rw [hpockets f hf]
  | extra e he f hf =>
    obtain ⟨k, -, rfl⟩ := mem_map.mp he
    obtain ⟨hmem, hpos⟩ := extra_hit hf
    rw [hpos, hpockets f hmem]
  | hole0 f hf q hq => exact hhole 0 f hf hq
  | hole1 f hf q hq => exact hhole 1 f hf hq

omit [FloorSemiring K] in
/-- Moving back by the offset puts the camera over the mark. -/
theorem pinpointLoop_sees [IsStrictOrderedRing K] {A : Mat K} {accuracy : K}
    (hA : cam.getAffineOnZ z = some A) (hdet : A.det ≠ 0) (hzero : hypot 0 0 = 0)
    (haccuracy : 0 ≤ accuracy) (tries : ℕ) (T P : Vec K)
    (hfar : ¬ hypot (T.sub P).x (T.sub P).y ≤ accuracy) :
    pinpointLoop hypot cam (fun pos => cam.sees A pos P) z accuracy (tries + 2) T = ⟨true, P⟩ := by
  have hback : T.sub (T.sub P) = P := by
    ext
    · exact sub_sub_cancel _ _
    · exact sub_sub_cancel _ _
  have hthere : P.sub P = ⟨0, 0⟩ := by
    ext
    · exact sub_self _
    · exact sub_self _
  simp only [pinpointLoop, Cam.pixelsToMmOffset_sees hA hdet]
  rw [if_neg hfar, hback, hthere, if_pos (hzero.le.trans haccuracy)]

/-- **VISION REPORTS THE OTHER SIDE**: with a camera that was calibrated on the
    linear model, a detected hole or pocket at `P` is reported at `P` exactly if
    the camera is over it; `pinpoint_target` ends at `P` from anywhere else. -/
theorem reported_position_iff [IsStrictOrderedRing K] {A : Mat K} {T P px q : Vec K}
    {legs : List (Leg K)} {left : List (Detection K) × List (Detection K)}
    (hlegs : ∀ leg ∈ legs, leg.Follows A) (hdet : A.det ≠ 0)
    (htape : analyzeTape hypot atan2 cam z circles rects width =
      some (some tape, left))
    (hfit : (fitAffineDelta hypot legs).isSome)
    (hcamera : cam.getAffineOnZ tape.z = fitAffineDelta hypot legs)
    (hcfg : generateFeederConfig T tape count = some cfg)
    (hreports : Reports T tape cfg px q) (hpx : px = cam.sees A T P) (hzero : hypot 0 0 = 0) :
    (q = P ↔ T = P) ∧
      ∀ accuracy ≥ 0, ¬ hypot (T.sub P).x (T.sub P).y ≤ accuracy → ∀ tries,
        pinpointLoop hypot cam (fun pos => cam.sees A pos P) tape.z accuracy
          (tries + 2) T = ⟨true, P⟩ := by
  obtain ⟨B, hB⟩ := Option.isSome_iff_exists.mp hfit
  have hA : cam.getAffineOnZ tape.z = some A := by rw [hcamera, hB, fitAffineDelta_follows hlegs hB]
  obtain ⟨-, -, -, hholes, hpockets⟩ := analyzeTape_some htape
  have hq := reports_eq hholes hpockets hcfg hreports
  rw [hpx, Cam.pixelsToMmOffset_sees hA hdet] at hq
  refine ⟨?_, fun accuracy haccuracy hfar tries =>
    pinpointLoop_sees hA hdet hzero haccuracy tries T P hfar⟩
  -- the mark is reported at `2 T - P`
  have hx : q.x = T.x + (T.x - P.x) := congrArg Vec.x hq
  have hy : q.y = T.y + (T.y - P.y) := congrArg Vec.y hq
  constructor
  · rintro rfl
    ext
    · linarith
    · linarith
  · rintro rfl
    ext
    · rw [hx, sub_self, add_zero]
    · rw [hy, sub_self, add_zero]

/-! ## A feeder for a tape -/

/-- Two neighbours of the list are more than 0.4 mm apart. -/
def HasGap (items : List (Found K)) : Prop :=
  ∃ i p q, items[i]? = some p ∧ items[i + 1]? = some q ∧ q.dist - p.dist > 4 / 10

omit [FloorSemiring K] in
/-- The span of sorted items can be measured exactly if there is a gap. -/
theorem medianSpan_isSome_iff {items : List (Found K)}
    (hsorted : items.Pairwise fun p q => p.dist ≤ q.dist) :
    (medianSpan items).isSome ↔ HasGap items := by
  rw [medianSpan, (pairwise_map.mpr hsorted).insertionSort_eq]
  split
  · next hshort =>
    refine iff_of_false nofun ?_
    rintro ⟨i, p, q, -, hq, -⟩
    have hi := (List.getElem?_eq_some_iff.mp hq).1
    omega
  · dsimp only
    generalize hdiffs : (((items.map Found.dist).zipWith (fun d next => next - d)
      (items.map Found.dist).tail).filter fun diff => diff > 4 / 10) = diffs
    have hgap : HasGap items ↔ 0 < diffs.length := by
      simp only [← hdiffs, length_pos_iff_exists_mem, mem_filter]
      simp only [mem_iff_getElem?, getElem?_zipWith_eq_some,
        getElem?_tail, getElem?_map, Option.map_eq_some_iff,
        decide_eq_true_eq]
      constructor
      · rintro ⟨i, p, q, hp, hq, hfar⟩
        exact ⟨_, ⟨i, _, _, ⟨p, hp, rfl⟩, ⟨q, hq, rfl⟩, rfl⟩, hfar⟩
      · rintro ⟨_, ⟨i, _, _, ⟨p, hp, rfl⟩, ⟨q, hq, rfl⟩, rfl⟩, hfar⟩
        exact ⟨i, p, q, hp, hq, hfar⟩
    rw [hgap, ← length_insertionSort (· ≤ ·) diffs]
    generalize diffs.insertionSort (· ≤ ·) = s
    cases s with
    | nil => exact iff_of_false nofun nofun
    | cons d s =>
      have hpos : 0 < (d :: s).length := Nat.succ_pos _
      rw [if_neg (by simp), getElem?_eq_getElem (Nat.div_lt_self hpos one_lt_two),
        getElem?_eq_getElem (by omega : (d :: s).length / 2 - 1 < _)]
      refine iff_of_true ?_ hpos
      split
      · rfl
      · rfl

/-- The configuration has `count` pockets, numbered from 0, at equal distances from the first of
    the tape on. -/
def YieldsFeeder (pos0 : Vec K) (tape : Tape K) (count : ℕ) : Prop :=
  ∃ cfg first pitch, generateFeederConfig pos0 tape count = some cfg ∧
    tape.pockets.head? = some first ∧
    cfg.extras.map (fun e => (e.index, e.dist)) =
      (List.range count).map fun (k : ℕ) => (k, first.dist + k * pitch)

/-- **A FEEDER NEEDS A GAP**: a detected tape yields one exactly if two neighbouring pockets are
    more than 0.4 mm apart; otherwise the pitch is `None`. -/
theorem yieldsFeeder_iff {left : List (Detection K) × List (Detection K)}
    (htape : analyzeTape hypot atan2 cam z circles rects width =
      some (some tape, left)) (pos0 : Vec K) (hcount : 1 ≤ count) :
    YieldsFeeder pos0 tape count ↔ HasGap tape.pockets := by
  obtain ⟨hwidth, ⟨limits, hlimits⟩, hsorted, -⟩ := analyzeTape_some htape
  have hspan := medianSpan_isSome_iff hsorted
  constructor
  · rintro ⟨cfg, first, pitch, hcfg, -⟩
    obtain ⟨fNom, -, hcfg⟩ := Option.bind_eq_some_iff.mp hcfg
    obtain ⟨measured, hmeasured, -⟩ := Option.bind_eq_some_iff.mp hcfg
    exact hspan.mp (Option.isSome_iff_exists.mpr ⟨measured, hmeasured⟩)
  · intro hgap
    obtain ⟨measured, hmeasured⟩ := Option.isSome_iff_exists.mp (hspan.mpr hgap)
    obtain ⟨fNom, hfNom⟩ : ∃ fNom : K, eia481F tape.width = some fNom := by
      rw [hwidth]
      unfold eia481Ffol at hlimits
      split at hlimits <;> first | exact ⟨_, rfl⟩ | exact nomatch hlimits
    obtain ⟨first, hfirst⟩ : ∃ first, tape.pockets.head? = some first := by
      obtain ⟨i, p, q, hp, -⟩ := hgap
      exact ⟨_, head?_eq_some_head (ne_nil_of_mem (mem_of_getElem? hp))⟩
    obtain ⟨n, rfl⟩ := Nat.exists_eq_add_of_le' hcount
    obtain ⟨cfg, hcfg, hextras⟩ : ∃ cfg, generateFeederConfig pos0 tape (n + 1) = some cfg ∧
        cfg.extras = (List.range (n + 1)).map
          (tape.extra pos0 first.dist (snapPitch measured) fNom) := by
      simp [generateFeederConfig, hfNom, hmeasured, hfirst, range_succ_eq_map]
    refine ⟨cfg, first, snapPitch measured, hcfg, hfirst, ?_⟩
    rw [hextras, map_map]
    rfl

end Reports

/-! ## A tape in view

The camera is over (100, 50).  The holes are at (101, 50) and (105, 50), the
pockets at (103, 53.5) and (107, 53.5). -/

/-- `hypot`, where it is rational. -/
def rationalHypot (x y : ℚ) : ℚ := Rat.sqrt (x * x + y * y)

/-- Ten pixels for a millimetre at every height. -/
def squareMat : Mat ℚ := ⟨10, 0, 0, 10⟩

/-- A calibrated camera. -/
def squareCam : Cam ℚ := ⟨⟨0, 0⟩, some ((squareMat, 0), (squareMat, 0))⟩

/-- Two legs of a rosette with that camera. -/
def squareLegs : List (Leg ℚ) := [⟨⟨1, 0⟩, ⟨10, 0⟩⟩, ⟨⟨0, 1⟩, ⟨0, 10⟩⟩]

/-- Where the camera is. -/
def seenFrom : Vec ℚ := ⟨100, 50⟩

/-- Where the first pocket is. -/
def firstPocket : Vec ℚ := ⟨103, 107 / 2⟩

/-- The holes it sees. -/
def tapeHoles : List (Detection ℚ) :=
  [squareCam.sees squareMat seenFrom ⟨101, 50⟩, squareCam.sees squareMat seenFrom ⟨105, 50⟩]

/-- The pockets it sees. -/
def tapePockets : List (Detection ℚ) :=
  [squareCam.sees squareMat seenFrom firstPocket, squareCam.sees squareMat seenFrom ⟨107, 107 / 2⟩]

/-- The first pocket as found. -/
def foundPocket : Found ℚ := ⟨⟨-30, -35⟩, ⟨-3, -7 / 2⟩, 2⟩

/-- The second pocket as found. -/
def nextPocket : Found ℚ := ⟨⟨-70, -35⟩, ⟨-7, -7 / 2⟩, 6⟩

/-- The tape of these. -/
def seenTape : Tape ℚ where
  pockets := [foundPocket, nextPocket]
  holes := [⟨⟨-10, 0⟩, ⟨-1, 0⟩, 0⟩, ⟨⟨-50, 0⟩, ⟨-5, 0⟩, 4⟩]
  angle := 0
  z := 0
  u := ⟨-1, 0⟩
  width := 8
  c0 := ⟨-1, 0⟩

/-- The entry of the first pocket. -/
def firstExtra : Extra ℚ := ⟨0, 2, ⟨-3, -7 / 2⟩, ⟨97, 93 / 2⟩, some foundPocket⟩

/-- The feeder of this tape. -/
def seenConfig : FeederConfig ℚ where
  extras := [firstExtra, ⟨1, 6, ⟨-7, -7 / 2⟩, ⟨93, 93 / 2⟩, some nextPocket⟩]
  pocket0 := ⟨97, 93 / 2⟩
  hole0 := some ⟨99, 50⟩
  hole1 := some ⟨95, 50⟩

theorem analyzeTape_seen :
    analyzeTape rationalHypot (fun _ _ => 0) squareCam 0 tapeHoles tapePockets 8 =
      some (some seenTape, [], []) := by
  decide +kernel

theorem yieldsFeeder_iff_seen : YieldsFeeder seenFrom seenTape 2 :=
  (yieldsFeeder_iff analyzeTape_seen seenFrom one_le_two).mpr
    ⟨0, foundPocket, nextPocket, rfl, rfl, by decide +kernel⟩

/-- A tape with a single pocket in view is detected, and its configuration fails. -/
theorem feeder_fails_on_lone_pocket :
    analyzeTape rationalHypot (fun _ _ => 0) squareCam 0 tapeHoles
        (tapePockets.take 1) 8 =
      some (some { seenTape with pockets := [foundPocket] }, [], []) ∧
      generateFeederConfig seenFrom { seenTape with pockets := [foundPocket] } 10 = none := by
  decide +kernel

theorem generateFeederConfig_seen : generateFeederConfig seenFrom seenTape 2 = some seenConfig := by
  decide +kernel

theorem reports_seen :
    Reports seenFrom seenTape seenConfig
      (squareCam.sees squareMat seenFrom firstPocket) ⟨97, 93 / 2⟩ := by
  have hpx : squareCam.sees squareMat seenFrom firstPocket = foundPocket.px := by decide +kernel
  rw [hpx]
  exact .extra firstExtra (.head _) foundPocket rfl

theorem reported_position_iff_seen :
    ((⟨97, 93 / 2⟩ : Vec ℚ) = firstPocket ↔ seenFrom = firstPocket) ∧
      pinpointLoop rationalHypot squareCam
        (fun pos => squareCam.sees squareMat pos firstPocket) 0 (1 / 100) 2 seenFrom =
          ⟨true, firstPocket⟩ := by
  have hlegs : ∀ leg ∈ squareLegs, leg.Follows squareMat := by decide +kernel
  have hseen := reported_position_iff hlegs (by decide +kernel) analyzeTape_seen
    (by decide +kernel) (by decide +kernel) generateFeederConfig_seen reports_seen rfl
    (by decide +kernel)
  exact ⟨hseen.1, hseen.2 (1 / 100) (by decide +kernel) (by decide +kernel) 0⟩

/-- The pocket at (103, 53.5) is put at (97, 46.5), while `pinpoint_target` ends over it. -/
theorem pocket_on_other_side :
    fitAffineDelta rationalHypot squareLegs = some squareMat ∧
      squareCam.getAffineOnZ 0 = some squareMat ∧
      (analyzeTape rationalHypot (fun _ _ => 0) squareCam 0 tapeHoles tapePockets
        8).map Prod.fst = some (some seenTape) ∧
      (generateFeederConfig seenFrom seenTape 2).map FeederConfig.pocket0 =
        some ⟨97, 93 / 2⟩ ∧
      pinpointLoop rationalHypot squareCam
        (fun pos => squareCam.sees squareMat pos firstPocket) 0 (1 / 100) 2 seenFrom =
          ⟨true, firstPocket⟩ ∧
      (⟨97, 93 / 2⟩ : Vec ℚ) ≠ firstPocket := by
  decide +kernel

end PnpVision
