import Mathlib

/-! # The light of a camera (`klippy/extras/camera_v4l.py`)

A light is set by a text of tokens, each a brightness, a white temperature or a
colour in hex.  A token is tried as a number first, and a colour whose hex digits are
all decimal is a number. -/

namespace CameraLight

open List

/-- What is given for a light. -/
inductive Value where
  | none
  | bool (value : Bool)
  | number (value : ℚ)
  | text (value : List Char)
  deriving DecidableEq

/-- The errors of `parse_light`. -/
inductive LightError where
  /-- `LIGHT: unexpected boolean`. -/
  | boolean
  /-- `LIGHT brightness must be in 0..1`, with what was got. -/
  | brightness (got : Value)
  /-- `could not convert string to float`, of a temperature. -/
  | temperature (text : List Char)
  /-- `cannot parse LIGHT token`. -/
  | token (tok : List Char)
  deriving DecidableEq

/-- White space, as `strip` and `\s` have it. -/
def isSpace (c : Char) : Bool :=
  let n := c.toNat
  (9 ≤ n && n ≤ 13) || (28 ≤ n && n ≤ 32) || (0x2000 ≤ n && n ≤ 0x200a) ||
    [0x85, 0xa0, 0x1680, 0x2028, 0x2029, 0x202f, 0x205f, 0x3000].contains n

/-- `[0-9a-f]` in either case, and its value. -/
def hexDigit (c : Char) : Option ℕ :=
  if c.isDigit then some (c.toNat - 48)
  else if 'a' ≤ c.toLower ∧ c.toLower ≤ 'f' then some (c.toLower.toNat - 87)
  else none

/-- The channels of a colour with two digits each. -/
def byPairs : List ℕ → List ℚ
  | d₁ :: d₂ :: digits => ((16 * d₁ + d₂ : ℕ) / 255) :: byPairs digits
  | _ => []

/-- `parse_hex_color`. -/
def parseHexColor (tok : List Char) : Option (List ℚ) :=
  let text := (tok.dropWhile isSpace).rdropWhile isSpace
  let text := if text.head? = some '#' then text.tail else text
  let text := if (text.take 2).map Char.toLower = ['0', 'x'] then text.drop 2 else text
  (text.mapM hexDigit).bind fun digits =>
    if digits.length = 3 ∨ digits.length = 4 then
      some (digits.map fun d => ((16 * d + d : ℕ) / 255))
    else if digits.length = 6 ∨ digits.length = 8 then some (byPairs digits)
    else none

/-- The number of some digits. -/
def decimal (digits : List Char) : ℚ :=
  digits.foldl (fun value c => 10 * value + (c.toNat - 48 : ℕ)) 0

/-- The number of a token that `_FLOAT_RE` matches. -/
def floatValue (tok : List Char) : Option ℚ :=
  let signed := tok.head? = some '+' ∨ tok.head? = some '-'
  let sign := if tok.head? = some '-' then -1 else 1
  let body := if signed then tok.tail else tok
  let whole := body.takeWhile Char.isDigit
  match body.dropWhile Char.isDigit with
  | [] => if whole = [] then none else some (sign * decimal whole)
  | c :: fraction =>
    if c = '.' ∧ fraction.all Char.isDigit ∧ (whole ≠ [] ∨ fraction ≠ []) then
      some (sign * (decimal (whole ++ fraction) / 10 ^ fraction.length))
    else none

/-- What separates components. -/
def separates (c : Char) : Bool := isSpace c || c == ',' || c == ';'

/-- The brightness and the colour. -/
abbrev Light := Option ℚ × Option (List ℚ)

section

-- `kelvin_to_rgb(float(text))`, which fails where `float` does
variable (kelvin : List Char → Option (List ℚ))

/-- One turn of the loop of `parse_light`. -/
def parseToken : Light → List Char → Except LightError Light
  | light, [] => .ok light
  | (s, color), tok@(c :: rest) =>
    match floatValue tok with
    | some val =>
      if val < 0 ∨ 1 < val then .error (.brightness (.text tok))
      else .ok (some val, color)
    | none =>
      if c = 'k' ∨ c = 'K' then
        match kelvin rest with
        | some color => .ok (s, some color)
        | none => .error (.temperature rest)
      else
        match parseHexColor tok with
        | some color => .ok (s, some color)
        | none => .error (.token tok)

/-- `parse_light`. -/
def parseLight : Value → Except LightError Light
  | .none => .ok (none, none)
  | .bool _ => .error .boolean
  | .number x => if x < 0 ∨ 1 < x then .error (.brightness (.number x)) else .ok (some x, none)
  | .text text => (text.splitOnP separates).foldlM (parseToken kelvin) (none, none)

end

/-- `'%02X' % n`. -/
def hexByte (n : ℕ) : List Char := ((Nat.toDigits 16 n).map Char.toUpper).leftpad 2 '0'

/-- `format_hex_color`. -/
def formatHexColor (color : List ℚ) : Value :=
  if color = [] then .none
  else .text (color.flatMap fun c => hexByte ⌊c * 255 + 1 / 2⌋₊)

/-! ## The text of a colour -/

/-- A digit of `%02X`. -/
def hexChar (d : Fin 16) : Char := Char.ofNat (if d.val < 10 then 48 + d else 55 + d)

/-- The two digits of a channel. -/
def digitsOf (k : Fin 256) : List (Fin 16) := [Fin.ofNat 16 (k / 16), Fin.ofNat 16 k]

theorem hexByte_eq : ∀ k : Fin 256, hexByte k = (digitsOf k).map hexChar := by
  decide +kernel

/-- What a digit is, and what it is not. -/
theorem hexChar_spec : ∀ d : Fin 16, hexDigit (hexChar d) = some d.val ∧
    ((hexChar d).isDigit = true ↔ d.val < 10) ∧ isSpace (hexChar d) = false ∧
    separates (hexChar d) = false ∧ (hexChar d).toLower ≠ 'x' ∧
    hexChar d ∉ ['#', '+', '-', '.', 'k', 'K'] := by
  decide +kernel

variable {ds : List (Fin 16)}

theorem mapM_hexDigit (ds : List (Fin 16)) :
    (ds.map hexChar).mapM hexDigit = some (ds.map Fin.val) := by
  induction ds with
  | nil => rfl
  | cons d ds ih =>
    rw [map_cons, mapM_cons, (hexChar_spec d).1, ih]
    rfl

/-- Digits are read as they stand, two for each channel. -/
theorem parseHexColor_digits (hlen : ds.length = 6 ∨ ds.length = 8) :
    parseHexColor (ds.map hexChar) = some (byPairs (ds.map Fin.val)) := by
  have hfront : (ds.map hexChar).dropWhile isSpace = ds.map hexChar := by
    rw [dropWhile_map, dropWhile_eq_self_iff.mpr]
    exact fun hpos => by simp [hexChar_spec]
  have hback : (ds.map hexChar).rdropWhile isSpace = ds.map hexChar := by
    rw [rdropWhile_eq_self_iff]
    intro hne
    simp [getLast_map, hexChar_spec]
  rw [parseHexColor, hfront, hback]
  match ds, hlen with
  | d₁ :: d₂ :: rest, hlen =>
    have h₁ := hexChar_spec d₁
    have h₂ := hexChar_spec d₂
    have hhash : ¬ ((d₁ :: d₂ :: rest).map hexChar).head? = some '#' := by simp_all
    have hx : ¬ (((d₁ :: d₂ :: rest).map hexChar).take 2).map Char.toLower = ['0', 'x'] := by
      simp_all
    rw [if_neg hhash, if_neg hx, mapM_hexDigit, Option.bind_some, length_map,
      if_neg (by omega), if_pos hlen]

/-- Digits are a number where all of them are decimal. -/
theorem floatValue_digits (hne : ds ≠ []) :
    floatValue (ds.map hexChar) = none ↔ ∃ d ∈ ds, 10 ≤ d.val := by
  obtain ⟨d, rest, rfl⟩ := exists_cons_of_ne_nil hne
  have hd := hexChar_spec d
  have hsign : ¬ (((d :: rest).map hexChar).head? = some '+' ∨
      ((d :: rest).map hexChar).head? = some '-') := by
    simp_all
  rw [floatValue, if_neg hsign, takeWhile_map, dropWhile_map]
  have hsplit := takeWhile_append_dropWhile (p := Char.isDigit ∘ hexChar) (l := d :: rest)
  have hhead := head?_dropWhile_not (Char.isDigit ∘ hexChar) (d :: rest)
  cases hdrop : (d :: rest).dropWhile (Char.isDigit ∘ hexChar) with
  | nil =>
    rw [hdrop, append_nil] at hsplit
    show (if _ then _ else _) = none ↔ _
    rw [hsplit, if_neg (by simp)]
    refine iff_of_false nofun ?_
    rintro ⟨d', hd', hten⟩
    have hdigit := dropWhile_eq_nil_iff.mp hdrop d' hd'
    exact absurd ((hexChar_spec d').2.1.mp hdigit) (not_lt.mpr hten)
  | cons d' fraction =>
    rw [hdrop] at hhead hsplit
    have hspec := hexChar_spec d'
    show (if _ then _ else _) = none ↔ _
    rw [if_neg (by simp_all)]
    refine iff_of_true rfl ⟨d', hsplit ▸ by simp, not_lt.mp fun hlt => ?_⟩
    exact nomatch (hspec.2.1.mpr hlt).symm.trans hhead

theorem parseToken_digits (kelvin : List Char → Option (List ℚ))
    (hlen : ds.length = 6 ∨ ds.length = 8) :
    parseToken kelvin (none, none) (ds.map hexChar) =
        .ok (none, some (byPairs (ds.map Fin.val))) ↔ ∃ d ∈ ds, 10 ≤ d.val := by
  have hcolor := parseHexColor_digits hlen
  obtain ⟨d, rest, rfl⟩ : ∃ d rest, ds = d :: rest := exists_cons_of_length_pos (by omega)
  have hd := hexChar_spec d
  rw [← floatValue_digits (cons_ne_nil d rest)]
  rw [map_cons] at hcolor ⊢
  rw [parseToken]
  cases floatValue (hexChar d :: rest.map hexChar) with
  | none =>
    have hk : ¬ (hexChar d = 'k' ∨ hexChar d = 'K') := by simp_all
    rw [if_neg hk, hcolor]
    exact iff_of_true rfl rfl
  | some val =>
    refine iff_of_false ?_ nofun
    dsimp only
    split
    · exact nofun
    · exact nofun

/-- The colour of channels of eight bits. -/
def colorOf (ks : List (Fin 256)) : List ℚ := ks.map fun k => (k.val / 255 : ℚ)

variable {ks : List (Fin 256)}

theorem formatHexColor_colorOf (hne : ks ≠ []) :
    formatHexColor (colorOf ks) = .text ((ks.flatMap digitsOf).map hexChar) := by
  rw [formatHexColor, if_neg (by simpa [colorOf] using hne), colorOf, flatMap_map, map_flatMap]
  refine congrArg _ (flatMap_congr fun k _ => ?_)
  have hround : ⌊(k.val / 255 : ℚ) * 255 + 1 / 2⌋₊ = k.val := by
    rw [div_mul_cancel₀ _ (by norm_num), Nat.floor_eq_iff (by positivity)]
    exact ⟨by linarith, by linarith⟩
  rw [hround, hexByte_eq]

theorem byPairs_digitsOf (ks : List (Fin 256)) :
    byPairs ((ks.flatMap digitsOf).map Fin.val) = colorOf ks := by
  induction ks with
  | nil => rfl
  | cons k ks ih =>
    have hval : 16 * (k.val / 16 % 16) + k.val % 16 = k.val := by omega
    show ((16 * (k.val / 16 % 16) + k.val % 16 : ℕ) / 255 : ℚ) ::
      byPairs ((ks.flatMap digitsOf).map Fin.val) = _
    rw [hval, ih]
    rfl

theorem exists_letter : ∀ k : Fin 256,
    (∃ d ∈ digitsOf k, 10 ≤ d.val) ↔ 10 ≤ k.val / 16 ∨ 10 ≤ k.val % 16 := by
  decide +kernel

/-- **WHERE A COLOUR ROUND TRIPS**: the hex of a colour is read as that colour, and as no
    brightness, exactly if one of its digits is a letter. -/
theorem parseLight_formatHexColor_iff (kelvin : List Char → Option (List ℚ))
    (ks : List (Fin 256)) (hlen : ks.length = 3 ∨ ks.length = 4) :
    parseLight kelvin (formatHexColor (colorOf ks)) = .ok (none, some (colorOf ks)) ↔
      ∃ k ∈ ks, 10 ≤ k.val / 16 ∨ 10 ≤ k.val % 16 := by
  have hne : ks ≠ [] := by
    rintro rfl
    simp at hlen
  have hcount : (ks.flatMap digitsOf).length = ks.length * 2 := by simp [digitsOf]
  have hpairs : (ks.flatMap digitsOf).length = 6 ∨ (ks.flatMap digitsOf).length = 8 := by omega
  have hsingle : ((ks.flatMap digitsOf).map hexChar).splitOnP separates =
      [(ks.flatMap digitsOf).map hexChar] := by
    refine splitOnP_eq_singleton fun c hc => ?_
    obtain ⟨d, -, rfl⟩ := mem_map.mp hc
    exact (hexChar_spec d).2.2.2.1
  have hletter : (∃ d ∈ ks.flatMap digitsOf, 10 ≤ d.val) ↔
      ∃ k ∈ ks, 10 ≤ k.val / 16 ∨ 10 ≤ k.val % 16 := by
    simp only [mem_flatMap, ← exists_letter]
    tauto
  rw [formatHexColor_colorOf hne, parseLight, hsingle, ← hletter, ← byPairs_digitsOf,
    ← parseToken_digits kelvin hpairs, foldlM_cons]
  simp only [foldlM_nil, bind_pure]

/-- Red: its first channel has letters. -/
theorem parseLight_formatHexColor_iff_red :
    parseLight (fun _ => none) (formatHexColor (colorOf [255, 0, 0])) =
      .ok (none, some (colorOf [255, 0, 0])) :=
  (parseLight_formatHexColor_iff _ [255, 0, 0] (by decide)).mpr
    ⟨255, mem_cons_self, .inl (by decide)⟩

/-- The darkest blue is read as full brightness. -/
theorem dark_blue_is_brightness :
    parseLight (fun _ => none) (formatHexColor (colorOf [0, 0, 1])) = .ok (some 1, none) := by
  decide +kernel

end CameraLight
