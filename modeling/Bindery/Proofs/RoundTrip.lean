import Bindery.Plan.Document
import Bindery.Proofs.Pairs

set_option autoImplicit false

namespace Bindery

namespace Json

open Digits

theorem skipBlanks_cons {c : Char} (visible : isBlank c = false) (rest : List Char) :
    skipBlanks (c :: rest) = c :: rest := by
  simp [skipBlanks, visible]

theorem exists_intDigits_eq_cons (value : Int) :
    ∃ first others, intDigits value = first :: others ∧ (isDigit first = true ∨ first = '-') := by
  cases value with
  | ofNat value =>
      obtain ⟨digit, digits, written, isDigit⟩ := exists_toDigits_eq_cons value
      exact ⟨digit, digits, written, Or.inl isDigit⟩
  | negSucc value => exact ⟨'-', _, rfl, Or.inr rfl⟩

theorem isBlank_of_numeral {first : Char} (numeral : isDigit first = true ∨ first = '-') :
    isBlank first = false := by
  rcases numeral with digit | rfl
  · simp only [isDigit, Bool.and_eq_true, decide_eq_true_eq] at digit
    simp only [isBlank, Bool.or_eq_false_iff, decide_eq_false_iff_not]
    refine ⟨⟨⟨?_, ?_⟩, ?_⟩, ?_⟩ <;> rintro rfl <;> exact absurd digit (by decide)
  · rfl

theorem readValue_numeral (fuel : Nat) {first : Char} (others : List Char)
    (numeral : isDigit first = true ∨ first = '-') :
    readValue (fuel + 1) (first :: others) = readNumber (first :: others) := by
  have differs : ∀ c, isDigit c = false → c ≠ '-' → first ≠ c := by
    rintro c notDigit notSign rfl
    rcases numeral with digit | sign
    · rw [digit] at notDigit
      cases notDigit
    · exact notSign sign
  rw [readValue, skipBlanks_cons (isBlank_of_numeral numeral)]
  split <;> rename_i same
  · exact absurd (List.cons.inj same).1 (differs 'n' rfl (by decide))
  · exact absurd (List.cons.inj same).1 (differs 't' rfl (by decide))
  · exact absurd (List.cons.inj same).1 (differs 'f' rfl (by decide))
  · exact absurd (List.cons.inj same).1 (differs '"' rfl (by decide))
  · exact absurd (List.cons.inj same).1 (differs '[' rfl (by decide))
  · exact absurd (List.cons.inj same).1 (differs '\x7b' rfl (by decide))
  · rfl

/-- The text of a value starts with a character that is neither blank nor a closing bracket. -/
theorem exists_chars_eq_cons (value : Json) : ∃ first others, value.chars = first :: others ∧
    isBlank first = false ∧ first ≠ ']' := by
  have numeral : ∀ number : Int, ∃ first others, intDigits number = first :: others ∧
      isBlank first = false ∧ first ≠ ']' := by
    intro number
    obtain ⟨first, others, written, starts⟩ := exists_intDigits_eq_cons number
    refine ⟨first, others, written, isBlank_of_numeral starts, ?_⟩
    rintro rfl
    rcases starts with digit | sign
    · cases digit
    · cases sign
  cases value with
  | int number => exact numeral number
  | decimal mantissa exponent =>
      obtain ⟨first, others, written, starts⟩ := numeral mantissa
      exact ⟨first, others ++ 'e' :: intDigits exponent, by rw [chars, written]; rfl, starts⟩
  | bool value => cases value <;> exact ⟨_, _, rfl, rfl, by decide⟩
  | _ => exact ⟨_, _, rfl, rfl, by decide⟩

theorem charsItems_cons_cons (item next : Json) (items : List Json) :
    charsItems (item :: next :: items) =
      item.chars ++ ',' :: ' ' :: charsItems (next :: items) := rfl

theorem charsFields_cons_cons (name : String) (value : Json) (next : String × Json)
    (fields : List (String × Json)) :
    charsFields ((name, value) :: next :: fields) =
      quoted (.plain name) ++
        ':' :: ' ' :: (value.chars ++ ',' :: ' ' :: charsFields (next :: fields)) := rfl

theorem exists_charsItems_eq_cons (item : Json) (items : List Json) :
    ∃ first others, charsItems (item :: items) = first :: others ∧
      isBlank first = false ∧ first ≠ ']' := by
  obtain ⟨first, others, written, starts⟩ := exists_chars_eq_cons item
  cases items with
  | nil => exact ⟨first, others, written, starts⟩
  | cons next items =>
      exact ⟨first, others ++ ',' :: ' ' :: charsItems (next :: items),
        by rw [charsItems_cons_cons, written]; rfl, starts⟩

theorem exists_charsFields_eq_cons (field : String × Json) (fields : List (String × Json)) :
    ∃ others, charsFields (field :: fields) = '"' :: others := by
  cases fields with
  | nil => exact ⟨_, rfl⟩
  | cons next fields => exact ⟨_, rfl⟩

theorem readValue_skipBlank (fuel : Nat) (text : List Char) :
    readValue fuel (' ' :: text) = readValue fuel text := by
  cases fuel with
  | zero => rfl
  | succ fuel => rfl

mutual

/-- The value in whose strings all pairs of surrogates are joined. -/
def joined : Json → Json
  | .string text => .string text.joined
  | .arr items => .arr (joinedItems items)
  | .obj fields => .obj (joinedFields fields)
  | value => value

def joinedItems : List Json → List Json
  | [] => []
  | item :: items => joined item :: joinedItems items

def joinedFields : List (String × Json) → List (String × Json)
  | [] => []
  | (name, value) :: fields => (name, joined value) :: joinedFields fields

end

mutual

/-- A value is read back from its text with its pairs joined, whatever follows it. -/
theorem readValue_chars : ∀ (value : Json) (fuel : Nat) (rest : List Char),
    2 * value.chars.length + 1 ≤ fuel → EndsNumeral rest →
      readValue fuel (value.chars ++ rest) = some (value.joined, rest)
  | value, 0, _, enough, _ => by omega
  | .null, fuel + 1, rest, _, _ => by
      simp [readValue, chars, skipBlanks, isBlank, joined]
  | .bool true, fuel + 1, rest, _, _ => by
      simp [readValue, chars, skipBlanks, isBlank, joined]
  | .bool false, fuel + 1, rest, _, _ => by
      simp [readValue, chars, skipBlanks, isBlank, joined]
  | .int value, fuel + 1, rest, _, ends => by
      obtain ⟨first, others, written, starts⟩ := exists_intDigits_eq_cons value
      have read := readNumber_int value ends
      rw [written] at read
      rw [chars, written, List.cons_append, readValue_numeral fuel _ starts]
      exact read
  | .decimal mantissa exponent, fuel + 1, rest, _, ends => by
      obtain ⟨first, others, written, starts⟩ := exists_intDigits_eq_cons mantissa
      have read := readNumber_decimal mantissa exponent ends.endsDigits
      rw [written] at read
      rw [chars, List.append_assoc, List.cons_append, written, List.cons_append,
        readValue_numeral fuel _ starts]
      exact read
  | .string text, fuel + 1, rest, _, _ => by
      simp [readValue, chars, skipBlanks, isBlank, quoted, readString_quoted, joined]
  | .arr [], fuel + 1, rest, _, _ => by
      simp [readValue, chars, charsItems, skipBlanks, isBlank, joined, joinedItems]
  | .arr (item :: items), fuel + 1, rest, enough, _ => by
      obtain ⟨first, others, written, visible, opens⟩ := exists_charsItems_eq_cons item items
      have read := readItems_charsItems (item :: items) fuel rest (List.cons_ne_nil _ _) (by
        simp only [chars, List.length_cons, List.length_append] at enough
        omega)
      rw [written, List.cons_append] at read
      rw [chars, written, List.cons_append, List.append_assoc, readValue,
        skipBlanks_cons (by rfl)]
      simp only [List.cons_append, List.nil_append, skipBlanks_cons visible]
      split
      · rename_i same
        exact absurd (List.cons.inj same).1 opens
      · rw [read]
        rfl
  | .obj [], fuel + 1, rest, _, _ => by
      simp [readValue, chars, charsFields, skipBlanks, isBlank, joined, joinedFields]
  | .obj (field :: fields), fuel + 1, rest, enough, _ => by
      obtain ⟨others, written⟩ := exists_charsFields_eq_cons field fields
      have read := readFields_charsFields (field :: fields) fuel rest (List.cons_ne_nil _ _) (by
        simp only [chars, List.length_cons, List.length_append] at enough
        omega)
      rw [written, List.cons_append] at read
      rw [chars, written, List.cons_append, List.append_assoc, readValue,
        skipBlanks_cons (by rfl)]
      simp only [List.cons_append, List.nil_append, skipBlanks_cons (c := '"') (by rfl)]
      split
      · rename_i same
        exact absurd (List.cons.inj same).1 (by decide)
      · rw [read]
        rfl

theorem readItems_charsItems : ∀ (items : List Json) (fuel : Nat) (rest : List Char),
    items ≠ [] → 2 * (charsItems items).length + 2 ≤ fuel →
      readItems fuel (charsItems items ++ ']' :: rest) = some (joinedItems items, rest)
  | [], _, _, nonempty, _ => absurd rfl nonempty
  | _, 0, _, _, enough => by omega
  | [item], fuel + 1, rest, _, enough => by
      have ends : EndsNumeral (']' :: rest) := by
        rintro c ⟨⟩
        decide
      rw [charsItems] at enough ⊢
      rw [readItems, readValue_chars item fuel (']' :: rest) (by omega) ends]
      simp only [Option.bind_eq_bind, Option.bind_some, skipBlanks_cons (c := ']') (by rfl)]
      rfl
  | item :: next :: items, fuel + 1, rest, _, enough => by
      have ends : ∀ text, EndsNumeral (',' :: text) := by
        rintro text c ⟨⟩
        decide
      simp only [charsItems, List.length_append, List.length_cons] at enough
      have first := readValue_chars item fuel
        (',' :: ' ' :: (charsItems (next :: items) ++ ']' :: rest)) (by omega) (ends _)
      have others := readItems_charsItems (next :: items) fuel rest (List.cons_ne_nil _ _)
        (by omega)
      have skipped : readItems fuel (' ' :: (charsItems (next :: items) ++ ']' :: rest)) =
          some (joinedItems (next :: items), rest) := by
        rw [← others]
        cases fuel with
        | zero => rfl
        | succ fuel => rw [readItems, readItems, readValue_skipBlank]
      rw [charsItems_cons_cons, List.append_assoc, List.cons_append, List.cons_append, readItems,
        first]
      simp only [Option.bind_eq_bind, Option.bind_some, skipBlanks_cons (c := ',') (by rfl),
        skipped]
      rfl

theorem readFields_charsFields : ∀ (fields : List (String × Json)) (fuel : Nat)
    (rest : List Char), fields ≠ [] → 2 * (charsFields fields).length + 2 ≤ fuel →
      readFields fuel (charsFields fields ++ '\x7d' :: rest) = some (joinedFields fields, rest)
  | [], _, _, nonempty, _ => absurd rfl nonempty
  | _, 0, _, _, enough => by omega
  | [(name, value)], fuel + 1, rest, _, enough => by
      have ends : EndsNumeral ('\x7d' :: rest) := by
        rintro c ⟨⟩
        decide
      simp only [charsFields, List.length_append, List.length_cons] at enough
      have read := readValue_chars value fuel ('\x7d' :: rest) (by omega) ends
      rw [readFields, charsFields, quoted]
      simp only [List.cons_append, List.append_assoc, List.nil_append,
        skipBlanks_cons (c := '"') (by rfl), skipBlanks_cons (c := ':') (by rfl),
        readString_quoted, Text.joined_plain, Option.bind_eq_bind, Option.bind_some,
        readValue_skipBlank, read,
        skipBlanks_cons (c := '\x7d') (by rfl)]
      rfl
  | (name, value) :: next :: fields, fuel + 1, rest, _, enough => by
      have ends : ∀ text, EndsNumeral (',' :: text) := by
        rintro text c ⟨⟩
        decide
      rw [charsFields_cons_cons] at enough
      simp only [List.length_append, List.length_cons] at enough
      have first := readValue_chars value fuel
        (',' :: ' ' :: (charsFields (next :: fields) ++ '\x7d' :: rest)) (by omega) (ends _)
      have others := readFields_charsFields (next :: fields) fuel rest (List.cons_ne_nil _ _)
        (by omega)
      have skipped : readFields fuel (' ' :: (charsFields (next :: fields) ++ '\x7d' :: rest)) =
          some (joinedFields (next :: fields), rest) := by
        rw [← others]
        cases fuel with
        | zero => rfl
        | succ fuel => rfl
      rw [readFields, charsFields_cons_cons, quoted]
      simp only [List.cons_append, List.append_assoc, List.nil_append,
        skipBlanks_cons (c := '"') (by rfl), skipBlanks_cons (c := ':') (by rfl),
        readString_quoted, Text.joined_plain, Option.bind_eq_bind, Option.bind_some,
        readValue_skipBlank, first,
        skipBlanks_cons (c := ',') (by rfl), skipped]
      rfl

end

example : chars (.str "a\"\x01é😀") = "\"a\\\"\\u0001\\u00e9\\ud83d\\ude00\"".toList := by cbv

mutual

theorem isPlain_chars : ∀ (value : Json), ∀ c ∈ value.chars, IsPlain c
  | .null | .bool true | .bool false => by
      simp only [chars, List.forall_mem_cons, List.not_mem_nil, false_implies, implies_true,
        and_true]
      decide
  | .int value => isPlain_intDigits value
  | .decimal mantissa exponent => by
      rw [chars, List.forall_mem_append, List.forall_mem_cons]
      exact ⟨isPlain_intDigits mantissa, by decide, isPlain_intDigits exponent⟩
  | .string text => isPlain_quoted text
  | .arr items => by
      rw [chars, List.forall_mem_cons, List.forall_mem_append, List.forall_mem_singleton]
      exact ⟨by decide, isPlain_charsItems items, by decide⟩
  | .obj fields => by
      rw [chars, List.forall_mem_cons, List.forall_mem_append, List.forall_mem_singleton]
      exact ⟨by decide, isPlain_charsFields fields, by decide⟩

theorem isPlain_charsItems : ∀ (items : List Json), ∀ c ∈ charsItems items, IsPlain c
  | [] => nofun
  | [item] => isPlain_chars item
  | item :: next :: items => by
      rw [charsItems_cons_cons, List.forall_mem_append, List.forall_mem_cons,
        List.forall_mem_cons]
      exact ⟨isPlain_chars item, by decide, by decide, isPlain_charsItems (next :: items)⟩

theorem isPlain_charsFields : ∀ (fields : List (String × Json)),
    ∀ c ∈ charsFields fields, IsPlain c
  | [] => nofun
  | [(name, value)] => by
      rw [charsFields, List.forall_mem_append, List.forall_mem_cons, List.forall_mem_cons]
      exact ⟨isPlain_quoted (.plain name), by decide, by decide, isPlain_chars value⟩
  | (name, value) :: next :: fields => by
      rw [charsFields_cons_cons, List.forall_mem_append, List.forall_mem_cons,
        List.forall_mem_cons, List.forall_mem_append, List.forall_mem_cons, List.forall_mem_cons]
      exact ⟨isPlain_quoted (.plain name), by decide, by decide, isPlain_chars value, by decide,
        by decide, isPlain_charsFields (next :: fields)⟩

end

mutual

/-- The names of each object stand in increasing order, so that none occurs twice. -/
def Ordered : Json → Prop
  | .arr items => AllOrdered items
  | .obj fields => (fields.map (·.1)).Pairwise (· < ·) ∧ FieldsOrdered fields
  | _ => True

def AllOrdered : List Json → Prop
  | [] => True
  | item :: items => Ordered item ∧ AllOrdered items

def FieldsOrdered : List (String × Json) → Prop
  | [] => True
  | (_, value) :: fields => Ordered value ∧ FieldsOrdered fields

end

end Json

namespace Json

end Json

namespace Target

mutual

def names : Target → List Text
  | .slot _ name | .sequence _ name | .external _ name _ => name.toList
  | .tuple parts => allNames parts
  | _ => []

def allNames : List Target → List Text
  | [] => []
  | part :: parts => names part ++ allNames parts

end

theorem joined_labelOr_iff (name : Option Text) (type : TypeName) :
    (labelOr name type).joined = labelOr name type ↔
      ∀ given ∈ name.toList, given.joined = given := by
  cases name <;> simp [labelOr, Json.joined]

mutual

/-- Joining pairs leaves a label as it is just if it leaves all names in it as they are. -/
theorem joined_label_iff : ∀ target : Target,
    target.label.joined = target.label ↔ ∀ name ∈ target.names, name.joined = name
  | .discard => by simp [label, Json.joined, names]
  | .slot _ name | .sequence _ name | .external _ name _ => joined_labelOr_iff name _
  | .unusable type _ => joined_labelOr_iff none type
  | .tuple parts => by
      rw [label, Json.joined, Json.arr.injEq, names]
      exact joined_labels_iff parts

theorem joined_labels_iff : ∀ parts : List Target,
    Json.joinedItems (labels parts) = labels parts ↔ ∀ name ∈ allNames parts, name.joined = name
  | [] => by simp [labels, Json.joinedItems, allNames]
  | part :: parts => by
      rw [labels, Json.joinedItems, List.cons.injEq, joined_label_iff part, joined_labels_iff parts,
        allNames, List.forall_mem_append]

end

mutual

theorem ordered_label : ∀ target : Target, target.label.Ordered
  | .discard | .slot _ _ | .sequence _ _ | .external _ _ _ | .unusable _ _ => trivial
  | .tuple parts => ordered_labels parts

theorem ordered_labels : ∀ parts : List Target, Json.AllOrdered (labels parts)
  | [] => trivial
  | part :: parts => ⟨ordered_label part, ordered_labels parts⟩

end

end Target

variable {F σ : Type}

theorem forall_mem_summarizeFrom_iff {such : StepSummary → Prop} {holds : Step F → Prop}
    (each : ∀ index (step : Step F), such (step.summary index) ↔ holds step) (index : Nat)
    (steps : List (Step F)) :
    (∀ summary ∈ summarizeFrom index steps, such summary) ↔ ∀ step ∈ steps, holds step := by
  induction steps generalizing index with
  | nil => simp [summarizeFrom]
  | cons step rest ih =>
      rw [summarizeFrom, List.forall_mem_cons, List.forall_mem_cons, each, ih]

theorem forall_mem_summarizeFrom {such : StepSummary → Prop}
    (each : ∀ index (step : Step F), such (step.summary index)) (index : Nat)
    (steps : List (Step F)) : ∀ summary ∈ summarizeFrom index steps, such summary :=
  (forall_mem_summarizeFrom_iff (fun index step => iff_true_intro (each index step)) index
    steps).mpr fun _ _ => trivial

namespace Plan

def names (plan : Plan) (world : World F σ) : List Text :=
  (plan.stepsIn world).flatMap fun step => step.target.names

/-- Two surrogates are written like the character that has them as its units. -/
example : Json.chars (.string (.loose ⟨[0xD83D, 0xDE00], by decide, rfl⟩)) =
    Json.chars (.str "😀") := by cbv

end Plan

end Bindery
