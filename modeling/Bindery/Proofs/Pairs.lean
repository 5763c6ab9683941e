import Bindery.Proofs.Tokens

set_option autoImplicit false

namespace Bindery

namespace Json

theorem isPair_iff (high low : Nat) :
    (isHighSurrogate high && isLowSurrogate low) = true ↔
      (0xD800 ≤ high ∧ high < 0xDC00) ∧ 0xDC00 ≤ low ∧ low < 0xE000 := by
  simp only [isHighSurrogate, isLowSurrogate, Bool.and_eq_true, decide_eq_true_eq]

theorem joinPairs_cons {code : Nat} {rest : List Nat}
    (apart : ∀ next ∈ rest.head?, (isHighSurrogate code && isLowSurrogate next) = false) :
    joinPairs (code :: rest) = code :: joinPairs rest := by
  cases rest with
  | nil => rfl
  | cons next others => rw [joinPairs, apart next rfl]; rfl

theorem joinPairs_pair {high low : Nat} (pair : (isHighSurrogate high && isLowSurrogate low) = true)
    (rest : List Nat) :
    joinPairs (high :: low :: rest) =
      (0x10000 + (high - 0xD800) * 1024 + (low - 0xDC00)) :: joinPairs rest := by
  rw [joinPairs, if_pos pair]

theorem units_of_lt {code : Nat} (small : code < 0x10000) : units code = [code] := if_pos small

theorem units_beyond {code : Nat} (beyond : 0x10000 ≤ code) (bounded : code < codeLimit) :
    ∃ high low, units code = [high, low] ∧
      (isHighSurrogate high && isLowSurrogate low) = true ∧
      0x10000 + (high - 0xD800) * 1024 + (low - 0xDC00) = code := by
  simp only [codeLimit] at bounded
  refine ⟨0xD800 + (code - 0x10000) / 1024, 0xDC00 + (code - 0x10000) % 1024,
    if_neg (by omega), ?_, by omega⟩
  rw [isPair_iff]
  omega

theorem not_low_of_high {code : Nat} (high : isHighSurrogate code = true) :
    isLowSurrogate code = false := by
  simp only [isHighSurrogate, Bool.and_eq_true, decide_eq_true_eq] at high
  simp only [isLowSurrogate, Bool.and_eq_false_iff, decide_eq_false_iff_not]
  omega

theorem units_halves {high low : Nat}
    (pair : (isHighSurrogate high && isLowSurrogate low) = true) :
    units high = [high] ∧ units low = [low] := by
  rw [isPair_iff] at pair
  exact ⟨units_of_lt (by omega), units_of_lt (by omega)⟩

/-- The first unit of a code point is no low surrogate, unless the code point is one itself. -/
theorem head?_flatMap_units {points : List Nat} (bounded : ∀ code ∈ points, code < codeLimit)
    (apart : ∀ next ∈ points.head?, isLowSurrogate next = false) :
    ∀ unit ∈ (points.flatMap units).head?, isLowSurrogate unit = false := by
  cases points with
  | nil => nofun
  | cons code points =>
      have whole := apart code rfl
      by_cases small : code < 0x10000
      · rw [List.flatMap_cons, units_of_lt small]
        rintro unit ⟨⟩
        exact whole
      · obtain ⟨high, low, written, pair, -⟩ :=
          units_beyond (Nat.le_of_not_lt small) (bounded code List.mem_cons_self)
        rw [List.flatMap_cons, written]
        rintro unit ⟨⟩
        exact not_low_of_high (Bool.and_eq_true_iff.mp pair).1

/-- Code points are joined from their units as they are joined themselves. -/
theorem joinPairs_flatMap_units {points : List Nat}
    (bounded : ∀ code ∈ points, code < codeLimit) :
    joinPairs (points.flatMap units) = joinPairs points := by
  induction points using joinPairs.induct with
  | case1 => rfl
  | case2 code =>
      by_cases small : code < 0x10000
      · rw [List.flatMap_singleton, units_of_lt small]
      · obtain ⟨high, low, written, pair, same⟩ :=
          units_beyond (Nat.le_of_not_lt small) (bounded code List.mem_cons_self)
        rw [List.flatMap_singleton, written, joinPairs_pair pair, same]
        rfl
  | case3 high low rest pair ih =>
      rw [List.forall_mem_cons, List.forall_mem_cons] at bounded
      obtain ⟨first, second⟩ := units_halves pair
      rw [List.flatMap_cons, List.flatMap_cons, first, second, joinPairs_pair pair,
        ← ih bounded.2.2]
      exact joinPairs_pair pair _
  | case4 code next rest apart ih =>
      rw [List.forall_mem_cons] at bounded
      have single : joinPairs (code :: next :: rest) = code :: joinPairs (next :: rest) :=
        joinPairs_cons fun _ here => by cases here; exact Bool.eq_false_iff.mpr apart
      rw [single, List.flatMap_cons, ← ih bounded.2]
      by_cases small : code < 0x10000
      · rw [units_of_lt small, List.singleton_append]
        refine joinPairs_cons fun unit here => ?_
        cases high : isHighSurrogate code with
        | false => rfl
        | true =>
            have whole : ∀ other ∈ (next :: rest).head?, isLowSurrogate other = false := by
              rintro other ⟨⟩
              simpa [high] using apart
            exact head?_flatMap_units bounded.2 whole unit here
      · obtain ⟨high, low, written, pair, same⟩ :=
          units_beyond (Nat.le_of_not_lt small) bounded.1
        rw [written, List.cons_append, List.singleton_append, joinPairs_pair pair, same]

theorem lt_of_mem_joinPairs {points : List Nat} (bounded : ∀ code ∈ points, code < codeLimit) :
    ∀ code ∈ joinPairs points, code < codeLimit := by
  induction points using joinPairs.induct with
  | case1 | case2 => exact bounded
  | case3 high low rest pair ih =>
      rw [List.forall_mem_cons, List.forall_mem_cons] at bounded
      rw [joinPairs_pair pair, List.forall_mem_cons]
      rw [isPair_iff] at pair
      exact ⟨by simp only [codeLimit]; omega, ih bounded.2.2⟩
  | case4 code next rest apart ih =>
      rw [List.forall_mem_cons] at bounded
      rw [joinPairs, if_neg apart, List.forall_mem_cons]
      exact ⟨bounded.1, ih bounded.2⟩

theorem length_joinPairs_le (points : List Nat) : (joinPairs points).length ≤ points.length := by
  induction points using joinPairs.induct with
  | case1 | case2 => exact Nat.le_refl _
  | case3 high low rest pair ih =>
      rw [joinPairs_pair pair]
      simp only [List.length_cons]
      omega
  | case4 code next rest apart ih =>
      rw [joinPairs, if_neg apart]
      simp only [List.length_cons] at ih ⊢
      omega

/-- Somewhere a high surrogate stands directly before a low one. -/
def SplitsPair (points : List Nat) : Prop :=
  ∃ high low, (isHighSurrogate high && isLowSurrogate low) = true ∧ [high, low] <:+: points

theorem splitsPair_cons_cons {code next : Nat} {rest : List Nat} :
    SplitsPair (code :: next :: rest) ↔
      (isHighSurrogate code && isLowSurrogate next) = true ∨ SplitsPair (next :: rest) := by
  constructor
  · rintro ⟨high, low, pair, inside⟩
    rcases List.infix_cons_iff.mp inside with first | later
    · obtain ⟨rfl, second⟩ := List.cons_prefix_cons.mp first
      obtain ⟨rfl, -⟩ := List.cons_prefix_cons.mp second
      exact Or.inl pair
    · exact Or.inr ⟨high, low, pair, later⟩
  · rintro (pair | ⟨high, low, pair, inside⟩)
    · exact ⟨code, next, pair, [], rest, rfl⟩
    · exact ⟨high, low, pair, List.infix_cons inside⟩

/-- Joining changes a list just where it holds a pair. -/
theorem joinPairs_eq_self_iff (points : List Nat) :
    joinPairs points = points ↔ ¬ SplitsPair points := by
  induction points using joinPairs.induct with
  | case1 => simp [joinPairs, SplitsPair]
  | case2 code =>
      refine ⟨fun _ ⟨high, low, _, inside⟩ => ?_, fun _ => rfl⟩
      have short := inside.length_le
      simp at short
  | case3 high low rest pair ih =>
      rw [splitsPair_cons_cons, joinPairs_pair pair]
      refine ⟨fun same => ?_, fun unpaired => absurd (Or.inl pair) unpaired⟩
      have shorter := length_joinPairs_le rest
      have lengths := congrArg List.length same
      simp only [List.length_cons] at lengths
      omega
  | case4 code next rest apart ih =>
      rw [splitsPair_cons_cons, or_iff_right apart, ← ih, joinPairs, if_neg apart, List.cons.injEq]
      simp

end Json

namespace Text

/-- The text in which each high surrogate that stands directly before a low one makes one code point
with it. -/
def joined (text : Text) : Text :=
  ofPoints (Json.joinPairs text.points) (Json.lt_of_mem_joinPairs fun _ => lt_of_mem_points)

theorem points_joined (text : Text) : text.joined.points = Json.joinPairs text.points :=
  points_ofPoints _ _

theorem joined_eq_self_iff (text : Text) :
    text.joined = text ↔ ¬ Json.SplitsPair text.points := by
  rw [← Json.joinPairs_eq_self_iff, ← points_joined]
  exact ⟨fun same => by rw [same], points_inj⟩

theorem not_splitsPair_plain (string : String) :
    ¬ Json.SplitsPair (plain string).points := by
  rintro ⟨high, low, pair, inside⟩
  have member : high ∈ (plain string).points := inside.subset List.mem_cons_self
  obtain ⟨c, -, rfl⟩ := List.mem_map.mp member
  have whole := isSurrogate_toNat c
  simp_all [isSurrogate]

@[simp] theorem joined_plain (string : String) : (plain string).joined = plain string :=
  (joined_eq_self_iff _).mpr (not_splitsPair_plain string)

end Text

namespace Json

/-- A string is read back with its pairs joined. -/
theorem readString_quoted (text : Text) (rest : List Char) :
    readString (text.points.flatMap escape ++ '"' :: rest) = some (text.joined, rest) := by
  have bounded : ∀ code ∈ text.points, code < codeLimit := fun _ => Text.lt_of_mem_points
  have read : Text.ofPoints? (joinPairs text.points) = some text.joined := by
    rw [← Text.points_joined, Text.ofPoints?_points]
  simp [readString, readCodes_quoted bounded, joinPairs_flatMap_units bounded, read]

end Json

end Bindery
