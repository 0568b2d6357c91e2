import Pick.NumberProofs

/-! # The camera and its calibration

`klippy/extras/camera_v4l.py` turns a pixel into an offset in millimetres with
the inverse of a matrix that `klippy/extras/pnp_calibration.py` fits to moves
of the tool head.  A mark on the table is seen at `centre + A (T - P)`, so the
calibration finds `A`, and the offset of the mark is `T - P`: what the tool
head has to move *back* by to be over the mark. -/

namespace Camera

variable {K : Type} [Field K] [LinearOrder K]

/-! ## Vectors and matrices of size two -/

/-- A point or a displacement. -/
@[ext]
structure Vec (K : Type) where
  x : K
  y : K
  deriving DecidableEq

/-- Addition of vectors. -/
def Vec.add (u v : Vec K) : Vec K := ⟨u.x + v.x, u.y + v.y⟩

/-- Subtraction of vectors. -/
def Vec.sub (u v : Vec K) : Vec K := ⟨u.x - v.x, u.y - v.y⟩

/-- The matrix with the rows `(a, b)` and `(c, d)`. -/
@[ext]
structure Mat (K : Type) where
  a : K
  b : K
  c : K
  d : K
  deriving DecidableEq

/-- `A.dot(v)`. -/
def Mat.dot (A : Mat K) (v : Vec K) : Vec K := ⟨A.a * v.x + A.b * v.y, A.c * v.x + A.d * v.y⟩

/-- The determinant. -/
def Mat.det (A : Mat K) : K := A.a * A.d - A.b * A.c

/-- `numpy.linalg.inv`. -/
def Mat.inv (A : Mat K) : Mat K := ⟨A.d / A.det, -A.b / A.det, -A.c / A.det, A.a / A.det⟩

omit [LinearOrder K] in
theorem Mat.inv_dot_dot {A : Mat K} (hdet : A.det ≠ 0) (v : Vec K) : A.inv.dot (A.dot v) = v := by
  ext
  · show A.d / A.det * (A.a * v.x + A.b * v.y) + -A.b / A.det * (A.c * v.x + A.d * v.y) = v.x
    rw [div_mul_eq_mul_div, div_mul_eq_mul_div, ← add_div, div_eq_iff hdet, Mat.det]
    ring
  · show -A.c / A.det * (A.a * v.x + A.b * v.y) + A.a / A.det * (A.c * v.x + A.d * v.y) = v.y
    rw [div_mul_eq_mul_div, div_mul_eq_mul_div, ← add_div, div_eq_iff hdet, Mat.det]
    ring

/-! ## From a pixel to an offset (`camera_v4l.py`) -/

/-- What the conversions read: the optical centre and `px_per_mm`, two matrices
    with the heights they were measured at. -/
structure Cam (K : Type) where
  centre : Vec K
  pxPerMm : Option ((Mat K × K) × (Mat K × K))

/-- `get_affine_on_z`. -/
def Cam.getAffineOnZ (cam : Cam K) (z : K) : Option (Mat K) :=
  cam.pxPerMm.map fun ((A₁, z₁), (A₂, z₂)) =>
    let k := if |z₂ - z₁| > 1 / 1000 then (z - z₁) / (z₂ - z₁) else 0
    ⟨A₁.a + k * (A₂.a - A₁.a), A₁.b + k * (A₂.b - A₁.b),
      A₁.c + k * (A₂.c - A₁.c), A₁.d + k * (A₂.d - A₁.d)⟩

/-- `px_to_mm_delta`. -/
def Cam.pxToMmDelta (cam : Cam K) (d : Vec K) (z : K) : Option (Vec K) :=
  (cam.getAffineOnZ z).bind fun A => if A.det = 0 then none else some (A.inv.dot d)

/-- `pixels_to_mm_offset`. -/
def Cam.pixelsToMmOffset (cam : Cam K) (px : Vec K) (z : K) : Vec K :=
  (cam.pxToMmDelta (px.sub cam.centre) z).getD ⟨0, 0⟩

/-- Where a down-looking camera over `T` sees a mark at `P`. -/
def Cam.sees (cam : Cam K) (A : Mat K) (T P : Vec K) : Vec K := cam.centre.add (A.dot (T.sub P))

/-- The offset of a mark is the way from it to the camera. -/
theorem Cam.pixelsToMmOffset_sees {cam : Cam K} {A : Mat K} {z : K}
    (hA : cam.getAffineOnZ z = some A) (hdet : A.det ≠ 0) (T P : Vec K) :
    cam.pixelsToMmOffset (cam.sees A T P) z = T.sub P := by
  have hcentre : (cam.sees A T P).sub cam.centre = A.dot (T.sub P) := by
    ext
    · exact add_sub_cancel_left _ _
    · exact add_sub_cancel_left _ _
  rw [Cam.pixelsToMmOffset, hcentre, Cam.pxToMmDelta, hA, Option.bind_some,
    if_neg hdet, Mat.inv_dot_dot hdet]
  rfl

/-! ## Calibration (`pnp_calibration.py`) -/

/-- A leg of the rosette: a move of the tool head and how the mark moves in the picture. -/
structure Leg (K : Type) where
  d : Vec K
  dc : Vec K

/-- The sums of the normal equations over the legs that are used. -/
def legSum (f : Leg K → K) (legs : List (Leg K)) : K := (legs.map f).sum

section Fit

variable (hypot : K → K → K)

/-- `_fit_affine_delta`: each row of the matrix is fitted by least squares to one coordinate of
    the picture. -/
def fitAffineDelta (legs : List (Leg K)) : Option (Mat K) :=
  let legs := legs.filter fun leg => ¬ hypot leg.d.x leg.d.y < 1 / 1000000000
  if 2 * legs.length < 4 then none
  else
    let xx := legSum (fun l => l.d.x * l.d.x) legs
    let xy := legSum (fun l => l.d.x * l.d.y) legs
    let yy := legSum (fun l => l.d.y * l.d.y) legs
    let det := xx * yy - xy * xy
    if det = 0 then none
    else
      let row (f : Leg K → K) : K × K :=
        let u := legSum (fun l => l.d.x * f l) legs
        let v := legSum (fun l => l.d.y * f l) legs
        ((yy * u - xy * v) / det, (xx * v - xy * u) / det)
      let (a, b) := row fun l => l.dc.x
      let (c, d) := row fun l => l.dc.y
      if |(⟨a, b, c, d⟩ : Mat K).det| < 1 / 1000000000000 then none
      else some ⟨a, b, c, d⟩

end Fit

/-- A leg as the linear model has it: the mark stays, the camera moves. -/
def Leg.Follows (A : Mat K) (leg : Leg K) : Prop := leg.dc = A.dot leg.d

instance (A : Mat K) (leg : Leg K) : Decidable (leg.Follows A) :=
  inferInstanceAs (Decidable (leg.dc = A.dot leg.d))

variable {legs : List (Leg K)}

omit [LinearOrder K] in
theorem legSum_linear {f g h : Leg K → K} {p q : K}
    (hf : ∀ l ∈ legs, f l = p * g l + q * h l) :
    legSum f legs = p * legSum g legs + q * legSum h legs := by
  induction legs with
  | nil => simp [legSum]
  | cons l legs ih =>
    rw [List.forall_mem_cons] at hf
    have hrest := ih hf.2
    simp only [legSum, List.map_cons, List.sum_cons] at hrest ⊢
    rw [hrest, hf.1]
    ring

omit [LinearOrder K] in
/-- The sums of the normal equations, for a coordinate that is linear in the legs. -/
theorem legSum_weighted {f : Leg K → K} {p q : K} (w : Leg K → K)
    (hf : ∀ l ∈ legs, f l = p * l.d.x + q * l.d.y) :
    legSum (fun l => w l * f l) legs =
      p * legSum (fun l => l.d.x * w l) legs + q * legSum (fun l => w l * l.d.y) legs :=
  legSum_linear fun l hl => by rw [hf l hl]; ring

/-- **THE CALIBRATION FINDS THE MATRIX**: what it fits to legs that follow the linear model is
    the model's. -/
theorem fitAffineDelta_follows {hypot : K → K → K} {A B : Mat K}
    (hlegs : ∀ leg ∈ legs, leg.Follows A) (h : fitAffineDelta hypot legs = some B) : B = A := by
  rw [fitAffineDelta] at h
  dsimp only at h
  split at h
  · cases h
  split at h
  · cases h
  next hdet =>
  split at h
  · cases h
  -- the fitted legs follow the model too
  have hused : ∀ leg ∈ legs.filter
      (fun leg => ¬ hypot leg.d.x leg.d.y < 1 / 1000000000), leg.Follows A :=
    fun leg hleg => hlegs leg (List.mem_filter.mp hleg).1
  generalize legs.filter
    (fun leg => ¬ hypot leg.d.x leg.d.y < 1 / 1000000000) = used at h hdet hused
  have hx : ∀ l ∈ used, l.dc.x = A.a * l.d.x + A.b * l.d.y := fun l hl =>
    congrArg Vec.x (hused l hl)
  have hy : ∀ l ∈ used, l.dc.y = A.c * l.d.x + A.d * l.d.y := fun l hl =>
    congrArg Vec.y (hused l hl)
  rw [legSum_weighted (fun l => l.d.x) hx, legSum_weighted (fun l => l.d.y) hx,
    legSum_weighted (fun l => l.d.x) hy, legSum_weighted (fun l => l.d.y) hy] at h
  rw [← Option.some.inj h]
  ext
  · exact (div_eq_iff hdet).mpr (by ring)
  · exact (div_eq_iff hdet).mpr (by ring)
  · exact (div_eq_iff hdet).mpr (by ring)
  · exact (div_eq_iff hdet).mpr (by ring)

end Camera
