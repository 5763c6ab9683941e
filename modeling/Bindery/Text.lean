set_option autoImplicit false

namespace Bindery

def isHighSurrogate (code : Nat) : Bool :=
  0xD800 ≤ code && code < 0xDC00

def isLowSurrogate (code : Nat) : Bool :=
  0xDC00 ≤ code && code < 0xE000

/-- Whether a code point is one half of a surrogate pair, and so no character. -/
def isSurrogate (code : Nat) : Bool :=
  isHighSurrogate code || isLowSurrogate code

/-- The first number that is no code point. -/
def codeLimit : Nat := 0x110000

theorem isSurrogate_eq_false_iff (code : Nat) :
    isSurrogate code = false ↔ code < 0xD800 ∨ 0xDFFF < code := by
  simp only [isSurrogate, isHighSurrogate, isLowSurrogate, Bool.or_eq_false_iff,
    Bool.and_eq_false_iff, decide_eq_false_iff_not]
  omega

theorem toNat_cases (c : Char) : c.toNat < 0xD800 ∨ (0xDFFF < c.toNat ∧ c.toNat < 0x110000) :=
  c.valid

theorem isSurrogate_toNat (c : Char) : isSurrogate c.toNat = false := by
  have cases := toNat_cases c
  rw [isSurrogate_eq_false_iff]
  omega

theorem toNat_lt_codeLimit (c : Char) : c.toNat < codeLimit := by
  have cases := toNat_cases c
  simp only [codeLimit]
  omega

theorem toNat_ofNat {code : Nat} (bounded : code < codeLimit) (whole : isSurrogate code = false) :
    (Char.ofNat code).toNat = code := by
  have valid : code.isValidChar := by
    rw [isSurrogate_eq_false_iff] at whole
    simp only [codeLimit] at bounded
    simp only [Nat.isValidChar]
    omega
  rw [Char.ofNat, dif_pos valid]
  rfl

theorem toNat_ofNat_of_lt {code : Nat} (small : code < 0xD800) :
    (Char.ofNat code).toNat = code := by
  have bounded : code < codeLimit := Nat.lt_trans small (by decide)
  exact toNat_ofNat bounded ((isSurrogate_eq_false_iff code).mpr (Or.inl small))

/-- Code points of which at least one is a surrogate, so that they are no string of characters. -/
structure LooseText where
  points : List Nat
  bounded : ∀ code ∈ points, code < codeLimit
  loose : points.any isSurrogate = true
  deriving DecidableEq

/-- A text is a list of code points: a string of characters, or a list that holds surrogates. -/
inductive Text where
  | plain (string : String)
  | loose (text : LooseText)
  deriving DecidableEq

instance : Inhabited Text := ⟨.plain ""⟩

namespace Text

def points : Text → List Nat
  | .plain string => string.toList.map Char.toNat
  | .loose text => text.points

theorem lt_of_mem_points {text : Text} {code : Nat} (member : code ∈ text.points) :
    code < codeLimit := by
  cases text with
  | plain string =>
      obtain ⟨c, -, rfl⟩ := List.mem_map.mp member
      exact toNat_lt_codeLimit c
  | loose text => exact text.bounded code member

def ofPoints (points : List Nat) (bounded : ∀ code ∈ points, code < codeLimit) : Text :=
  if loose : points.any isSurrogate = true then .loose ⟨points, bounded, loose⟩
  else .plain (String.ofList (points.map Char.ofNat))

theorem points_ofPoints (points : List Nat) (bounded : ∀ code ∈ points, code < codeLimit) :
    (ofPoints points bounded).points = points := by
  unfold ofPoints
  split
  · rfl
  · rename_i whole
    simp only [List.any_eq_true, not_exists, not_and, Bool.not_eq_true] at whole
    rw [Text.points, String.toList_ofList, List.map_map]
    refine (List.map_congr_left fun code member => ?_).trans (List.map_id points)
    exact toNat_ofNat (bounded code member) (whole code member)

theorem ofPoints_plain (string : String) (bounded : ∀ code ∈ (plain string).points,
    code < codeLimit) : ofPoints (plain string).points bounded = .plain string := by
  have whole : ¬ (plain string).points.any isSurrogate = true := by
    simp [points, isSurrogate_toNat]
  rw [ofPoints, dif_neg whole, points, List.map_map]
  have same : string.toList.map (Char.ofNat ∘ Char.toNat) = string.toList :=
    (List.map_congr_left fun c _ => Char.ofNat_toNat c).trans (List.map_id _)
  rw [same, String.ofList_toList]

theorem ofPoints_points (text : Text) (bounded : ∀ code ∈ text.points, code < codeLimit) :
    ofPoints text.points bounded = text := by
  cases text with
  | plain string => exact ofPoints_plain string bounded
  | loose text => exact dif_pos text.loose

theorem points_inj {first second : Text} (same : first.points = second.points) :
    first = second := by
  have again := ofPoints_points second fun _ => lt_of_mem_points
  simp only [← same] at again
  exact (ofPoints_points first fun _ => lt_of_mem_points).symm.trans again

/-- The text with the given code points, if all of them are code points. -/
def ofPoints? (points : List Nat) : Option Text :=
  if bounded : ∀ code ∈ points, code < codeLimit then some (ofPoints points bounded) else none

theorem ofPoints?_points (text : Text) : ofPoints? text.points = some text := by
  have bounded : ∀ code ∈ text.points, code < codeLimit := fun _ => lt_of_mem_points
  rw [ofPoints?, dif_pos bounded, ofPoints_points]

def append (first second : Text) : Text :=
  ofPoints (first.points ++ second.points)
    (List.forall_mem_append.mpr ⟨fun _ => lt_of_mem_points, fun _ => lt_of_mem_points⟩)

end Text

end Bindery
