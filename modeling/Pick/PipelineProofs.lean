import Pick.NumberProofs
import Pick.CameraLightProofs

/-! # Filters of the vision pipeline (`klippy/extras/pnp_vision_pipeline.py`)

The filter by rotation folds the difference of two angles at a right angle,
like `_angle_diff_deg`, but does not reduce it to a half turn before.

The filters by size get their bands from `size_params_from_mm`.  All of them
hold the feature they were computed for, but the area of a circle.

A step of a definition that is not a call is left out without an error. -/

namespace Pipeline

open List Option

variable {K : Type} [Field K] [LinearOrder K] {α : Type}

/-! ## Sizes -/

/-- `_filter_find_contours`, with the area of each contour. -/
def findContours (area : α → K) (minArea maxArea : K) (contours : List α) : List α :=
  contours.filter fun c => minArea ≤ area c ∧ area c ≤ maxArea

/-- `_filter_find_contours_by_r`. -/
def findContoursByR (pi : K) (area : α → K) (minR maxR : K) : List α → List α :=
  findContours area (pi * minR * minR) (pi * maxR * maxR)

/-- The sizes in millimetres among the parameters. -/
structure Sizes (K : Type) where
  dia : Option K
  w : Option K
  h : Option K

/-- The bands of `size_params_from_mm`, in pixels. -/
structure Bands (K : Type) where
  r : Option (K × K)
  w : Option (K × K)
  h : Option (K × K)
  aspect : Option (K × K)
  area : Option (K × K)
  deriving DecidableEq

/-- The band around a size. -/
def band (tol x : K) : K × K := (x * (1 - tol), x * (1 + tol))

/-- `size_params_from_mm` with the scales `ux` and `uy` of the camera; without a
    usable scale there are no bands. -/
def sizeParamsFromMm (pi ux uy : K) (p : Sizes K) (tol : K) : Option (Bands K) :=
  let upp := 1 / 2 * (|ux| + |uy|)
  if upp < 1 / 10 ^ 12 then none
  else
    let r := p.dia.map fun dia => band tol (1 / 2 * dia / upp)
    let w := p.w.map fun w => band tol (w / upp)
    let h := p.h.map fun h => band tol (h / upp)
    let aspect := p.w.bind fun w => p.h.bind fun h =>
      if min w h > 1 / 10 ^ 9 then some (band tol (max w h / min w h)) else none
    -- the area of a rectangle replaces that of a circle
    let area := if aspect.isSome then
        w.bind fun w => h.map fun h => (w.1 * h.1, w.2 * h.2)
      else r.map fun r => (2 * pi * r.1 ^ 2, 2 * pi * r.2 ^ 2)
    some ⟨r, w, h, aspect, area⟩

/-- A perfect feature, by its size in millimetres. -/
inductive Feature (K : Type) where
  | circle (dia : K)
  | rect (w h : K)

/-- The sizes that are configured for it. -/
def Feature.sizes : Feature K → Sizes K
  | .circle dia => ⟨some dia, none, none⟩
  | .rect w h => ⟨none, some w, some h⟩

/-- No size is negative. -/
def Feature.NonNeg : Feature K → Prop
  | .circle dia => 0 ≤ dia
  | .rect w h => 0 ≤ w ∧ 0 ≤ h

/-- In the band. -/
def Within (x : K) (b : K × K) : Prop := b.1 ≤ x ∧ x ≤ b.2

/-- Seen at the scale `u` the feature lies in every band, and the two searches for
    contours keep it. -/
def Feature.Accepted (pi u : K) (bands : Bands K) : Feature K → Prop
  | .circle dia =>
    let r := 1 / 2 * dia / |u|
    let area := pi * r ^ 2
    (∀ b ∈ bands.r, Within r b ∧ findContoursByR pi id b.1 b.2 [area] = [area]) ∧
      ∀ b ∈ bands.area, findContours id b.1 b.2 [area] = [area]
  | .rect w h =>
    let area := w / |u| * (h / |u|)
    (∀ b ∈ bands.w, Within (w / |u|) b) ∧ (∀ b ∈ bands.h, Within (h / |u|) b) ∧
      (∀ b ∈ bands.aspect, Within (max w h / min w h) b) ∧
      ∀ b ∈ bands.area, findContours id b.1 b.2 [area] = [area]

omit [Field K] in
theorem findContours_single {a lo hi : K} :
    findContours id lo hi [a] = [a] ↔ Within a (lo, hi) := by
  simp [findContours, Within]

section Bands

variable [IsStrictOrderedRing K] {tol x : K}

theorem within_band (htol : 0 ≤ tol) (hx : 0 ≤ x) : Within x (band tol x) :=
  ⟨mul_le_of_le_one_right hx (by linarith), le_mul_of_one_le_right hx (by linarith)⟩

/-- Products of quantities in bands lie in the product of the bands. -/
theorem within_mul {y : K} {b c : K × K} (hb : 0 ≤ b.1) (hc : 0 ≤ c.1)
    (hx : Within x b) (hy : Within y c) : Within (x * y) (b.1 * c.1, b.2 * c.2) :=
  ⟨mul_le_mul hx.1 hy.1 hc (hb.trans hx.1),
    mul_le_mul hx.2 hy.2 (hc.trans hy.1) ((hb.trans hx.1).trans hx.2)⟩

theorem band_nonneg (htol : tol < 1) (hx : 0 ≤ x) : 0 ≤ (band tol x).1 :=
  mul_nonneg hx (by linarith)

/-- **THE AREA OF A CIRCLE IS DOUBLED**: an ideal feature lies in all bands that are computed from
    its size exactly if it is no circle or the tolerance makes up for the factor two. -/
theorem accepted_iff {pi : K} (hpi : 0 < pi) (u : K) (htol : 0 ≤ tol) (htol1 : tol < 1)
    {feature : Feature K} (hsize : feature.NonNeg) :
    (∀ bands ∈ sizeParamsFromMm pi u u feature.sizes tol, feature.Accepted pi u bands) ↔
      |u| < 1 / 10 ^ 12 ∨ ∀ dia, feature = .circle dia → dia = 0 ∨ 2 * (1 - tol) ^ 2 ≤ 1 := by
  have hupp : 1 / 2 * (|u| + |u|) = |u| := by ring
  rw [sizeParamsFromMm, hupp]
  by_cases hsmall : |u| < 1 / 10 ^ 12
  · rw [if_pos hsmall]
    exact iff_of_true nofun (.inl hsmall)
  rw [if_neg hsmall, or_iff_right hsmall]
  have hu : 0 < |u| := lt_of_lt_of_le (by positivity) (not_lt.mp hsmall)
  cases feature with
  | circle dia =>
    have hr : 0 ≤ 1 / 2 * dia / |u| := div_nonneg (mul_nonneg (by norm_num) hsize) hu.le
    have hzero : 1 / 2 * dia / |u| = 0 ↔ dia = 0 := by simp [hu.ne']
    simp only [Feature.sizes, Feature.Accepted, map_some, bind_none,
      mem_def, some.injEq, forall_eq', Feature.circle.injEq,
      isSome_none, findContoursByR, findContours_single, Bool.false_eq_true,
      if_false, ← hzero]
    generalize 1 / 2 * dia / |u| = r at hr
    have hband := within_band htol hr
    have hsq := within_mul (band_nonneg htol1 hr) (band_nonneg htol1 hr) hband hband
    have hround : Within (pi * r ^ 2) (pi * (band tol r).1 * (band tol r).1,
        pi * (band tol r).2 * (band tol r).2) := by
      rw [pow_two, mul_assoc, mul_assoc]
      exact ⟨mul_le_mul_of_nonneg_left hsq.1 hpi.le, mul_le_mul_of_nonneg_left hsq.2 hpi.le⟩
    rw [and_iff_right ⟨hband, hround⟩, Within, band]
    have hlow : 2 * pi * (r * (1 - tol)) ^ 2 = pi * r ^ 2 * (2 * (1 - tol) ^ 2) := by ring
    have hhigh : 2 * pi * (r * (1 + tol)) ^ 2 = pi * r ^ 2 * (2 * (1 + tol) ^ 2) := by ring
    rw [hlow, hhigh, and_iff_left (le_mul_of_one_le_right (by positivity) (by nlinarith))]
    rcases hr.eq_or_lt with rfl | hpos
    · simp
    · rw [or_iff_right hpos.ne', mul_le_iff_le_one_right (by positivity)]
  | rect w h =>
    refine iff_of_true ?_ nofun
    have hw := within_band htol (div_nonneg hsize.1 hu.le)
    have hh := within_band htol (div_nonneg hsize.2 hu.le)
    have harea := within_mul (band_nonneg htol1 (div_nonneg hsize.1 hu.le))
      (band_nonneg htol1 (div_nonneg hsize.2 hu.le)) hw hh
    have haspect := within_band (x := max w h / min w h) htol
      (div_nonneg (le_max_of_le_left hsize.1) (le_min hsize.1 hsize.2))
    simp only [Feature.sizes, Feature.Accepted, map_some, bind_some,
      mem_def, some.injEq, forall_eq', findContours_single]
    refine ⟨hw, hh, ?_, ?_⟩
    · intro b hb
      split at hb
      · rwa [← some.inj hb]
      · cases hb
    · intro b hb
      split at hb
      · rwa [← some.inj hb]
      · cases hb

end Bands

/-- The double `numpy.pi`. -/
def numpyPi : ℚ := 884279719003555 / 281474976710656

theorem accepted_iff_wide : ∃ bands ∈
    sizeParamsFromMm numpyPi (1 / 10) (1 / 10) (Feature.circle 2).sizes (3 / 10),
      (Feature.circle 2).Accepted numpyPi (1 / 10) bands := by
  refine ⟨_, if_neg (by decide +kernel), ?_⟩
  exact (accepted_iff (by decide +kernel) _ (by decide +kernel) (by decide +kernel)
    (by exact zero_le_two)).mpr (.inr fun _ _ => .inr (by decide +kernel)) _
    (if_neg (by decide +kernel))

/-- A circle of 2 mm is refused with the default tolerance, for its area. -/
theorem circle_refused :
    sizeParamsFromMm numpyPi (1 / 10) (1 / 10) (Feature.circle 2).sizes (1 / 10) =
      some ⟨some (9, 11), none, none, none,
        some (2 * numpyPi * 9 ^ 2, 2 * numpyPi * 11 ^ 2)⟩ ∧
      findContours id (2 * numpyPi * 9 ^ 2) (2 * numpyPi * 11 ^ 2) [numpyPi * 10 ^ 2] = [] := by
  decide +kernel

/-! ## Rotations -/

/-- An angle beyond 90 degrees taken from the other end of the half turn. -/
def foldDeg (diff : K) : K := if 90 < diff then 180 - diff else diff

/-- `_filter_filter_rects_rot`. -/
def filterRectsRot (angle : α → K) (rot tol : K) (rects : List α) : List α :=
  rects.filter fun item => foldDeg |angle item - rot| ≤ tol

variable [FloorRing K]

/-- `_angle_diff_deg`. -/
def angleDiffDeg (a b : K) : K := foldDeg (|a - b| - 180 * ⌊|a - b| / 180⌋)

variable [IsStrictOrderedRing K]

/-- Up to a half turn the two foldings agree. -/
theorem angleDiffDeg_of_le {a b : K} (h : |a - b| ≤ 180) : angleDiffDeg a b = foldDeg |a - b| := by
  rcases h.lt_or_eq with hlt | heq
  · have hfloor : ⌊|a - b| / 180⌋ = 0 :=
      Int.floor_eq_zero_iff.mpr ⟨by positivity, (div_lt_one (by norm_num)).mpr hlt⟩
    rw [angleDiffDeg, hfloor, Int.cast_zero, mul_zero, sub_zero]
  · norm_num [angleDiffDeg, foldDeg, heq]

/-- **THE ROTATION FILTER DOES NOT WRAP**: it keeps the rectangles within `tol` of
    `rot` exactly if all that are more than a half turn away are among them. -/
theorem filterRectsRot_eq_iff (angle : α → K) (rot : K) {tol : K} (htol : 0 ≤ tol)
    (rects : List α) :
    filterRectsRot angle rot tol rects =
        rects.filter (fun item => angleDiffDeg (angle item) rot ≤ tol) ↔
      ∀ item ∈ rects, 180 < |angle item - rot| → angleDiffDeg (angle item) rot ≤ tol := by
  have hfar : ∀ item, 180 < |angle item - rot| → foldDeg |angle item - rot| ≤ tol := by
    intro item h
    rw [foldDeg, if_pos (by linarith)]
    linarith
  constructor
  · intro h item hitem hgt
    have hkept : item ∈ filterRectsRot angle rot tol rects :=
      mem_filter.mpr ⟨hitem, decide_eq_true (hfar item hgt)⟩
    rw [h] at hkept
    exact of_decide_eq_true (mem_filter.mp hkept).2
  · intro h
    refine filter_congr fun item hitem => decide_eq_decide.mpr ?_
    rcases le_or_gt |angle item - rot| 180 with hle | hgt
    · rw [angleDiffDeg_of_le hle]
    · exact iff_of_true (hfar item hgt) (h item hitem hgt)

/-- A rectangle at 250 degrees is kept as one at 0, from which it is 70 away. -/
theorem filterRectsRot_keeps_far :
    filterRectsRot id 0 5 [(250 : ℚ)] = [250] ∧ angleDiffDeg (250 : ℚ) 0 = 70 := by
  decide +kernel

theorem filterRectsRot_eq_iff_near :
    filterRectsRot id 0 5 [(178 : ℚ), 30] =
      [(178 : ℚ), 30].filter fun item => angleDiffDeg (id item) 0 ≤ 5 :=
  (filterRectsRot_eq_iff id 0 (by decide +kernel) _).mpr (by decide +kernel)

/-! ## Steps -/

open CameraLight (isSpace)

/-- `str.strip`. -/
def strip (text : List Char) : List Char := (text.dropWhile isSpace).rdropWhile isSpace

/-- The steps of a definition that are not empty. -/
def stepsOf (text : List Char) : List (List Char) :=
  ((text.splitOnP (· == '|')).map strip).filter (· ≠ [])

/-- `[a-zA-Z0-9_]`. -/
def isWord (c : Char) : Bool := c.isAlphanum || c == '_'

/-- `([a-zA-Z0-9_]+)\((.*)\)` at the start of a step: the arguments end at the last closing
    parenthesis of their line. -/
def matchStep (step : List Char) : Option (List Char × List Char) :=
  let name := step.takeWhile isWord
  match step.dropWhile isWord with
  | '(' :: rest =>
    let line := rest.takeWhile (· != '\n')
    if name ≠ [] ∧ ')' ∈ line then
      some (name, (line.rdropWhile (· != ')')).dropLast)
    else none
  | _ => none

/-- A single or a double quote. -/
def isQuote (c : Char) : Bool := c.toNat == 39 || c.toNat == 34

/-- The arguments of a call. -/
def argsList (args : List Char) : List (List Char) :=
  (((args.splitOnP (· == ',')).map strip).filter (· ≠ [])).map fun x =>
    (x.dropWhile isQuote).rdropWhile isQuote

/-- `_compile`. -/
def compile (text : List Char) : List (List Char × List (List Char)) :=
  (stepsOf text).filterMap fun step => (matchStep step).map fun found => (found.1, argsList found.2)

/-- The step is a name with arguments in parentheses, and nothing behind them. -/
def IsCall (step name args : List Char) : Prop :=
  step = name ++ '(' :: (args ++ [')']) ∧ '\n' ∉ args

/-- A list made from each of its items in turn, with none left out. -/
theorem forall₂_filterMap {β : Type} {f : α → Option β} {R : α → β → Prop} {l : List α} :
    List.Forall₂ R l (l.filterMap f) ↔ ∀ a ∈ l, ∃ b, f a = some b ∧ R a b := by
  constructor
  · intro h
    have hsome := filterMap_length_eq_length.mp h.length_eq.symm
    induction l with
    | nil => exact nofun
    | cons a l ih =>
      rw [forall_mem_cons] at hsome ⊢
      obtain ⟨b, hb⟩ := isSome_iff_exists.mp hsome.1
      rw [filterMap_cons_some hb, List.forall₂_cons] at h
      exact ⟨⟨b, hb, h.1⟩, ih h.2 hsome.2⟩
  · intro h
    induction l with
    | nil => exact .nil
    | cons a l ih =>
      rw [forall_mem_cons] at h
      obtain ⟨b, hb, hR⟩ := h.1
      rw [filterMap_cons_some hb]
      exact .cons hR (ih h.2)

theorem matchStep_call {step name args : List Char} (h : IsCall step name args)
    (hne : name ≠ []) (hword : ∀ c ∈ name, isWord c = true) :
    matchStep step = some (name, args) := by
  obtain ⟨rfl, hline⟩ := h
  have hall : (args ++ [')']).takeWhile (· != '\n') = args ++ [')'] := by
    rw [takeWhile_eq_self_iff]
    grind
  have hparen : isWord '(' = false := by decide
  rw [matchStep, takeWhile_append_of_pos hword, dropWhile_append_of_pos hword,
    takeWhile_cons_of_neg (by simp [hparen]),
    dropWhile_cons_of_neg (by simp [hparen]), append_nil]
  change (if name ≠ [] ∧ ')' ∈ List.takeWhile _ _ then some (name, _) else none) = _
  rw [hall, if_pos ⟨hne, by simp⟩, rdropWhile_concat_neg _ _ _ (by simp), dropLast_concat]

theorem word_of_matchStep {step : List Char} {found : List Char × List Char}
    (h : matchStep step = some found) : found.1 ≠ [] ∧ ∀ c ∈ found.1, isWord c = true := by
  rw [matchStep] at h
  dsimp only at h
  split at h
  · split at h
    · next hfound =>
      cases h
      exact ⟨hfound.1, fun c hc => mem_takeWhile_imp hc⟩
    · cases h
  · cases h

/-- **WHERE A PIPELINE RUNS ALL ITS STEPS**: each step that is not empty has its entry,
    with its name and its arguments, exactly if all of them are calls and nothing else. -/
theorem compile_reads_iff (text : List Char) :
    List.Forall₂ (fun step entry => ∃ args, IsCall step entry.1 args ∧
        entry.2 = argsList args) (stepsOf text) (compile text) ↔
      ∀ step ∈ stepsOf text, ∃ name args, IsCall step name args ∧ name ≠ [] ∧
        ∀ c ∈ name, isWord c = true := by
  rw [compile, forall₂_filterMap]
  refine forall₂_congr fun step _ => ⟨?_, ?_⟩
  · rintro ⟨entry, hentry, args, hcall, -⟩
    obtain ⟨found, hfound, rfl⟩ := map_eq_some_iff.mp hentry
    exact ⟨_, args, hcall, word_of_matchStep hfound⟩
  · rintro ⟨name, args, hcall, hne, hword⟩
    rw [matchStep_call hcall hne hword]
    exact ⟨_, rfl, args, hcall, rfl⟩

/-- A step that is no call is left out, and what stands behind a call is ignored. -/
theorem compile_drops_step :
    stepsOf "canny 50 | blur(3)x".toList = ["canny 50".toList, "blur(3)x".toList] ∧
      compile "canny 50 | blur(3)x".toList = [("blur".toList, ["3".toList])] := by
  decide +kernel

end Pipeline
