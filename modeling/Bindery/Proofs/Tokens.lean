import Bindery.Json.Grammar
import Bindery.Json.Text

set_option autoImplicit false

namespace Bindery

namespace Digits

theorem decimalValue_toDigits (value : Nat) : decimalValue (Nat.toDigits 10 value) = value := by
  have same : decimalValue (Nat.toDigits 10 value) =
      Nat.ofDigitChars 10 (Nat.toDigits 10 value) 0 :=
    Nat.ofDigitChars_eq_foldl.symm
  rw [same, Nat.ofDigitChars_ten_toDigits]

/-- A numeral has no leading zero, unless it is zero. -/
theorem head?_toDigits (value : Nat) (positive : 0 < value) :
    (Nat.toDigits 10 value).head? ≠ some '0' := by
  induction value using Nat.strongRecOn with
  | ind value ih =>
      by_cases single : value < 10
      · rw [Nat.toDigits_of_lt_base single]
        simpa using Nat.ne_of_gt positive
      · have several : 10 ≤ value := by omega
        have shorter := ih (value / 10) (by omega) (by omega)
        rw [Nat.toDigits_of_base_le (by decide) several, List.head?_append]
        cases front : Nat.toDigits 10 (value / 10) with
        | nil => exact absurd front Nat.toDigits_ne_nil
        | cons digit digits =>
            rw [front] at shorter
            exact shorter

theorem hexValue?_hexDigit (value : Nat) (small : value < 16) :
    hexValue? (hexDigit value) = some value := by
  have all : ∀ value < 16, hexValue? (hexDigit value) = some value := by decide
  exact all value small

theorem hexDigits_four (unit : Nat) :
    hexDigits 4 unit = [hexDigit (unit / 4096 % 16), hexDigit (unit / 256 % 16),
      hexDigit (unit / 16 % 16), hexDigit (unit % 16)] := by
  simp [hexDigits, Nat.div_div_eq_div_mul]

end Digits

namespace Json

open Digits

theorem unitValue?_hexDigits (unit : Nat) (small : unit < 0x10000) :
    unitValue? (hexDigit (unit / 4096 % 16)) (hexDigit (unit / 256 % 16))
      (hexDigit (unit / 16 % 16)) (hexDigit (unit % 16)) = some unit := by
  simp only [unitValue?, hexValue?_hexDigit _ (Nat.mod_lt _ (by decide)), Option.bind_eq_bind,
    Option.bind_some, Option.pure_def, Option.some.injEq]
  omega

def prepend (codes : List Nat) : List Nat × List Char → List Nat × List Char
  | (later, rest) => (codes ++ later, rest)

theorem readCodes_unitEscape (unit : Nat) (small : unit < 0x10000) (rest : List Char) :
    readCodes (unitEscape unit ++ rest) = (readCodes rest).map (prepend [unit]) := by
  rw [unitEscape, hexDigits_four]
  simp only [List.cons_append, List.nil_append]
  rw [readCodes, unitValue?_hexDigits unit small]
  cases readCodes rest <;> rfl

theorem readCodes_named {letter c : Char} (named : escaped? letter = some c) (rest : List Char) :
    readCodes ('\\' :: letter :: rest) = (readCodes rest).map (prepend [c.toNat]) := by
  have differ : letter ≠ 'u' := by
    rintro rfl
    cases named
  rw [readCodes, named]
  · cases readCodes rest <;> rfl
  · intro a b d e after same _
    exact differ same

theorem readCodes_plain {c : Char} (notQuote : c ≠ '"') (notSlash : c ≠ '\\')
    (visible : 0x20 ≤ c.toNat) (rest : List Char) :
    readCodes (c :: rest) = (readCodes rest).map (prepend [c.toNat]) := by
  have bare : ¬ c.toNat < 0x20 := by omega
  rw [readCodes, if_neg bare]
  · cases readCodes rest <;> rfl
  · exact notQuote
  · intro a b d e after same _
    exact notSlash same
  · intro letter after same _
    exact notSlash same

def IsPlain (c : Char) : Prop := 0x20 ≤ c.toNat ∧ c.toNat ≤ 0x7E

instance (c : Char) : Decidable (IsPlain c) :=
  inferInstanceAs (Decidable (0x20 ≤ c.toNat ∧ c.toNat ≤ 0x7E))

theorem escape_cases (code : Nat) :
    (∃ letter c, escape code = ['\\', letter] ∧ escaped? letter = some c ∧ c.toNat = code ∧
        code < 0x80 ∧ IsPlain letter) ∨
      (∃ c, escape code = [c] ∧ c.toNat = code ∧ c ≠ '"' ∧ c ≠ '\\' ∧ IsPlain c) ∨
      escape code = (units code).flatMap unitEscape := by
  unfold escape
  -- the seven characters that have a letter come first
  iterate 7
    split
    · rename_i same
      subst same
      exact Or.inl ⟨_, _, rfl, rfl, rfl, by decide, by decide⟩
  split
  · rename_i notQuote notSlash _ _ _ _ _ printable
    have same : (Char.ofNat code).toNat = code := toNat_ofNat_of_lt (by omega)
    refine Or.inr (Or.inl ⟨Char.ofNat code, rfl, same, ?_, ?_, ?_⟩)
    · exact fun quote => notQuote (by rw [← same, quote])
    · exact fun slash => notSlash (by rw [← same, slash])
    · rwa [IsPlain, same]
  · exact Or.inr (Or.inr rfl)

theorem units_lt {code : Nat} (bounded : code < codeLimit) :
    ∀ unit ∈ units code, unit < 0x10000 := by
  simp only [codeLimit] at bounded
  unfold units
  split
  · simpa
  · simp only [List.forall_mem_cons, List.not_mem_nil, false_implies, implies_true, and_true]
    omega

theorem readCodes_unitEscapes {codes : List Nat} (small : ∀ unit ∈ codes, unit < 0x10000)
    (rest : List Char) :
    readCodes (codes.flatMap unitEscape ++ rest) = (readCodes rest).map (prepend codes) := by
  induction codes with
  | nil => cases read : readCodes rest <;> simp [prepend, read]
  | cons unit codes ih =>
      rw [List.forall_mem_cons] at small
      rw [List.flatMap_cons, List.append_assoc, readCodes_unitEscape unit small.1, ih small.2]
      cases readCodes rest <;> rfl

theorem readCodes_escape {code : Nat} (bounded : code < codeLimit) (rest : List Char) :
    readCodes (escape code ++ rest) = (readCodes rest).map (prepend (units code)) := by
  rcases escape_cases code with ⟨letter, c, written, named, rfl, small, _⟩ |
    ⟨c, written, rfl, notQuote, notSlash, plain⟩ | written
  · have single : units c.toNat = [c.toNat] := if_pos (by omega)
    rw [written, single]
    exact readCodes_named named rest
  · have small : c.toNat ≤ 0x7E := plain.2
    have single : units c.toNat = [c.toNat] := if_pos (by omega)
    rw [written, single]
    exact readCodes_plain notQuote notSlash plain.1 rest
  · rw [written]
    exact readCodes_unitEscapes (units_lt bounded) rest

/-- A string is read back as the units of its code points. -/
theorem readCodes_quoted {points : List Nat} (bounded : ∀ code ∈ points, code < codeLimit)
    (rest : List Char) :
    readCodes (points.flatMap escape ++ '"' :: rest) = some (points.flatMap units, rest) := by
  induction points with
  | nil => rw [List.flatMap_nil, List.nil_append, readCodes, List.flatMap_nil]
  | cons code points ih =>
      rw [List.forall_mem_cons] at bounded
      rw [List.flatMap_cons, List.append_assoc, readCodes_escape bounded.1, ih bounded.2]
      rfl

theorem isDigit_toDigits (value : Nat) : ∀ c ∈ Nat.toDigits 10 value, isDigit c = true := by
  intro c member
  have digit := Nat.isDigit_of_mem_toDigits (by decide) (by decide) member
  simp only [Char.isDigit, Bool.and_eq_true, decide_eq_true_eq] at digit
  simp only [isDigit, Bool.and_eq_true, decide_eq_true_eq]
  exact digit

/-- What follows a run of digits does not go on with it. -/
def EndsDigits (rest : List Char) : Prop := ∀ c ∈ rest.head?, isDigit c = false

/-- What follows a numeral does not go on with it. -/
def EndsNumeral (rest : List Char) : Prop :=
  ∀ c ∈ rest.head?, isDigit c = false ∧ c ≠ '.' ∧ c ≠ 'e' ∧ c ≠ 'E'

theorem endsNumeral_nil : EndsNumeral [] := nofun

theorem EndsNumeral.endsDigits {rest : List Char} (ends : EndsNumeral rest) : EndsDigits rest :=
  fun c first => (ends c first).1

theorem readDigits_toDigits (value : Nat) {rest : List Char} (ends : EndsDigits rest) :
    readDigits (Nat.toDigits 10 value ++ rest) = some (Nat.toDigits 10 value, rest) := by
  have stopped : rest.takeWhile isDigit = [] ∧ rest.dropWhile isDigit = rest := by
    cases rest with
    | nil => exact ⟨rfl, rfl⟩
    | cons c rest =>
        have other : isDigit c = false := ends c rfl
        simp [other]
  have digits := isDigit_toDigits value
  rw [readDigits, List.takeWhile_append_of_pos digits, List.dropWhile_append_of_pos digits,
    stopped.1, stopped.2, List.append_nil]
  cases written : Nat.toDigits 10 value with
  | nil => exact absurd written Nat.toDigits_ne_nil
  | cons digit digits => rfl

theorem readWhole_toDigits (value : Nat) {rest : List Char} (ends : EndsDigits rest) :
    readWhole (Nat.toDigits 10 value ++ rest) = some (value, rest) := by
  have single : ¬ ((Nat.toDigits 10 value).head? = some '0' ∧
      (Nat.toDigits 10 value).length ≠ 1) := by
    rintro ⟨zero, several⟩
    cases value with
    | zero => exact several rfl
    | succ value => exact head?_toDigits (value + 1) (Nat.succ_pos value) zero
  simp only [readWhole, readDigits_toDigits value ends, Option.bind_eq_bind, Option.bind_some,
    if_neg single, decimalValue_toDigits]
  rfl

def signed (negative : Bool) (value : Nat) : Int := if negative then -(value : Int) else value

theorem readMagnitude_toDigits (negative : Bool) (value : Nat) {rest : List Char}
    (ends : EndsNumeral rest) :
    readMagnitude negative (Nat.toDigits 10 value ++ rest) =
      some (.int (signed negative value), rest) := by
  have fraction : readFraction rest = some ([], rest) := by
    cases rest with
    | nil => rfl
    | cons c rest =>
        rw [readFraction]
        rintro after same
        cases same
        exact (ends '.' rfl).2.1 rfl
  have exponent : readExponent rest = some (none, rest) := by
    cases rest with
    | nil => rfl
    | cons c rest =>
        have other : ¬ (c = 'e' ∨ c = 'E') := by
          rintro (same | same)
          · exact (ends c rfl).2.2.1 same
          · exact (ends c rfl).2.2.2 same
        exact if_neg other
  simp [readMagnitude, readWhole_toDigits value ends.endsDigits, fraction, exponent, signed]

/-- The sign of a numeral is told by its first character. -/
theorem exists_toDigits_eq_cons (value : Nat) :
    ∃ digit digits, Nat.toDigits 10 value = digit :: digits ∧ isDigit digit = true := by
  have digits := isDigit_toDigits value
  cases written : Nat.toDigits 10 value with
  | nil => exact absurd written Nat.toDigits_ne_nil
  | cons digit others =>
      rw [written] at digits
      exact ⟨digit, others, rfl, digits digit List.mem_cons_self⟩

theorem readExponent_intDigits (value : Int) {rest : List Char} (ends : EndsDigits rest) :
    readExponent ('e' :: (intDigits value ++ rest)) = some (some value, rest) := by
  cases value with
  | ofNat value =>
      obtain ⟨digit, digits, written, isDigit⟩ := exists_toDigits_eq_cons value
      have read := readDigits_toDigits value ends
      have valued := decimalValue_toDigits value
      rw [written] at read valued
      rw [List.cons_append] at read
      rw [intDigits, written, List.cons_append]
      simp only [readExponent, true_or, if_true]
      split
      · rename_i after same
        cases same
        cases isDigit
      · rename_i after same
        cases same
        cases isDigit
      · simp only [read, Option.bind_eq_bind, Option.bind_some, valued]
        rfl
  | negSucc value =>
      simp only [intDigits, List.cons_append, readExponent, true_or, if_true,
        readDigits_toDigits _ ends, Option.bind_eq_bind, Option.bind_some, decimalValue_toDigits]
      rfl

theorem readNumber_int (value : Int) {rest : List Char} (ends : EndsNumeral rest) :
    readNumber (intDigits value ++ rest) = some (.int value, rest) := by
  cases value with
  | ofNat value =>
      obtain ⟨digit, digits, written, isDigit⟩ := exists_toDigits_eq_cons value
      have read := readMagnitude_toDigits false value ends
      rw [written] at read
      rw [intDigits, written]
      rw [readNumber]
      · exact read
      · intro after same
        cases same
        cases isDigit
  | negSucc value => exact readMagnitude_toDigits true (value + 1) ends

theorem readNumber_decimal (mantissa exponent : Int) {rest : List Char} (ends : EndsDigits rest) :
    readNumber (intDigits mantissa ++ 'e' :: (intDigits exponent ++ rest)) =
      some (.decimal mantissa exponent, rest) := by
  have marked : ∀ negative value,
      readMagnitude negative (Nat.toDigits 10 value ++ 'e' :: (intDigits exponent ++ rest)) =
        some (.decimal (signed negative value) exponent, rest) := by
    intro negative value
    have stops : EndsDigits ('e' :: (intDigits exponent ++ rest)) := by
      rintro c ⟨⟩
      rfl
    have fraction : readFraction ('e' :: (intDigits exponent ++ rest)) =
        some ([], 'e' :: (intDigits exponent ++ rest)) := by
      rw [readFraction]
      rintro after ⟨⟩
    simp [readMagnitude, readWhole_toDigits value stops, fraction,
      readExponent_intDigits exponent ends, signed, decimalValue]
  cases mantissa with
  | ofNat value =>
      obtain ⟨digit, digits, written, isDigit⟩ := exists_toDigits_eq_cons value
      have read := marked false value
      rw [written] at read
      rw [intDigits, written, List.cons_append, readNumber]
      · exact read
      · intro after same
        cases same
        cases isDigit
  | negSucc value => exact marked true (value + 1)

theorem isPlain_hexDigit (value : Nat) (small : value < 16) : IsPlain (hexDigit value) := by
  have all : ∀ value < 16, 0x20 ≤ (hexDigit value).toNat ∧ (hexDigit value).toNat ≤ 0x7E := by
    decide
  exact all value small

theorem isPlain_unitEscape (unit : Nat) : ∀ c ∈ unitEscape unit, IsPlain c := by
  have digit : ∀ value, IsPlain (hexDigit (value % 16)) :=
    fun value => isPlain_hexDigit _ (Nat.mod_lt _ (by decide))
  rw [unitEscape, hexDigits_four]
  simp only [List.forall_mem_cons, List.not_mem_nil, false_implies, implies_true, and_true]
  exact ⟨by decide, by decide, digit _, digit _, digit _, digit _⟩

theorem isPlain_escape (code : Nat) : ∀ written ∈ escape code, IsPlain written := by
  rcases escape_cases code with ⟨letter, _, written, _, _, _, plain⟩ |
    ⟨c, written, _, _, _, plain⟩ | written
  · rw [written, List.forall_mem_cons, List.forall_mem_singleton]
    exact ⟨by decide, plain⟩
  · rw [written, List.forall_mem_singleton]
    exact plain
  · rw [written, List.forall_mem_flatMap]
    exact fun unit _ => isPlain_unitEscape unit

theorem isPlain_toDigits (value : Nat) : ∀ c ∈ Nat.toDigits 10 value, IsPlain c := by
  intro c member
  have digit := isDigit_toDigits value c member
  simp only [isDigit, Bool.and_eq_true, decide_eq_true_eq] at digit
  have low : 48 ≤ c.toNat := digit.1
  have high : c.toNat ≤ 57 := digit.2
  exact ⟨by omega, by omega⟩

theorem isPlain_intDigits (value : Int) : ∀ c ∈ intDigits value, IsPlain c := by
  cases value with
  | ofNat value => exact isPlain_toDigits value
  | negSucc value =>
      rw [intDigits, List.forall_mem_cons]
      exact ⟨by decide, isPlain_toDigits (value + 1)⟩

theorem isPlain_quoted (text : Text) : ∀ c ∈ quoted text, IsPlain c := by
  rw [quoted, List.forall_mem_cons, List.forall_mem_append, List.forall_mem_singleton,
    List.forall_mem_flatMap]
  exact ⟨by decide, fun code _ => isPlain_escape code, by decide⟩

end Json

end Bindery
