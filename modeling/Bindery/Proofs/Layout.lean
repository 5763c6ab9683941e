import Bindery.Proofs.Folding

set_option autoImplicit false

namespace Bindery

namespace Yaml

section Reader

def isWord (c : Char) : Bool :=
  ('a' ≤ c && c ≤ 'z') || c = '_'

/-- The name at the start of a line and what stands behind its colon. -/
def readName? (line : List Char) : Option (String × List Char) :=
  match line.dropWhile isWord with
  | ':' :: rest =>
      if gapFollows rest then some (String.ofList (line.takeWhile isWord), rest) else none
  | _ => none

/-- What starts at some place: a scalar, or a container at the given column. The text is what
stands behind its first dash, or behind its first name and colon. -/
inductive Start where
  | scalar (text : List Char)
  | items (column : Nat) (text : List Char)
  | fields (column : Nat) (name : String) (text : List Char)

/-- The container that starts with a line, if one does. -/
def container? (column : Nat) (line : List Char) : Option Start :=
  if line.head? = some '-' && gapFollows line.tail then some (.items column line.tail)
  else (readName? line).map fun (name, rest) => .fields column name rest

/-- The container that the next line starts or goes on with. -/
def nextLine? : List Char → Option Start
  | '\n' :: rest => container? (margin rest) (rest.drop (margin rest))
  | _ => none

def Place.start? (indent : Nat) : Place → List Char → Option Start
  | .key _, ' ' :: rest => some (.scalar rest)
  | .key _, text => nextLine? text
  | .dash, text => some ((container? (indent + 2) text.tail).getD (.scalar text.tail))

/-- The text of the next item of a sequence at the given column. -/
def itemAt? (column : Nat) (text : List Char) : Option (List Char) :=
  match nextLine? text with
  | some (.items start later) => if start = column then some later else none
  | _ => none

/-- The name and the text of the next entry of a mapping at the given column. -/
def fieldAt? (column : Nat) (text : List Char) : Option (String × List Char) :=
  match nextLine? text with
  | some (.fields start name later) => if start = column then some (name, later) else none
  | _ => none

mutual

/-- Reads the value at a place in a container at column `indent`. -/
def readNode : Nat → Nat → Place → List Char → Option (Json × List Char)
  | 0, _, _, _ => none
  | fuel + 1, indent, place, text =>
      match place.start? indent text with
      | some (.scalar text) => readScalar (indent + 2) text
      | some (.items column text) => (readItems fuel column text).map (Prod.map .arr id)
      | some (.fields column name text) =>
          (readFields fuel column name text).map (Prod.map .obj id)
      | none => none

def readItems : Nat → Nat → List Char → Option (List Json × List Char)
  | 0, _, _ => none
  | fuel + 1, column, text =>
      (readNode fuel column .dash text).bind fun (item, rest) =>
        match itemAt? column rest with
        | some later => (readItems fuel column later).map (Prod.map (item :: ·) id)
        | none => some ([item], rest)

def readFields : Nat → Nat → String → List Char → Option (List (String × Json) × List Char)
  | 0, _, _, _ => none
  | fuel + 1, column, name, text =>
      (readNode fuel column (.key name.length) text).bind fun (value, rest) =>
        match fieldAt? column rest with
        | some (next, later) =>
            (readFields fuel column next later).map (Prod.map ((name, value) :: ·) id)
        | none => some ([(name, value)], rest)

end

/-- Reads the document of a mapping. -/
def parse? (text : List Char) : Option (List (String × Json)) :=
  if text = document [] then some []
  else
    (readName? text).bind fun (name, rest) =>
      match readFields text.length 0 name rest.dropLast with
      | some (fields, []) => some fields
      | _ => none

end Reader

mutual

/-- The layout can be undone: all names are plain words, and all numerals those of integers. -/
def Reversible : Json → Prop
  | .decimal _ _ => False
  | .arr items => AllReversible items
  | .obj fields => FieldsReversible fields
  | _ => True

def AllReversible : List Json → Prop
  | [] => True
  | item :: items => Reversible item ∧ AllReversible items

def FieldsReversible : List (String × Json) → Prop
  | [] => True
  | (name, value) :: fields =>
      name.toList.all isWord = true ∧ Reversible value ∧ FieldsReversible fields

end

theorem allReversible_iff (items : List Json) :
    AllReversible items ↔ ∀ item ∈ items, Reversible item := by
  induction items with
  | nil => simp [AllReversible]
  | cons item items ih => rw [AllReversible, ih, List.forall_mem_cons]

variable {column : Nat} {rest : List Char}

theorem readName?_name {name : String} (word : name.toList.all isWord = true)
    (gap : gapFollows rest = true) :
    readName? (name.toList ++ ':' :: rest) = some (name, rest) := by
  have letters : ∀ c ∈ name.toList, isWord c = true := by simpa using word
  rw [readName?, List.dropWhile_append_of_pos letters, List.takeWhile_append_of_pos letters]
  simp [gap, isWord]

theorem head?_name {name : String} (word : name.toList.all isWord = true) {c : Char}
    (notWord : isWord c = false) (notColon : c ≠ ':') (rest : List Char) :
    (name.toList ++ ':' :: rest).head? ≠ some c := by
  cases letters : name.toList with
  | nil => simpa using Ne.symm notColon
  | cons first others =>
      rintro same
      obtain rfl : first = c := by simpa using same
      simp [letters, notWord] at word

theorem container?_item (column : Nat) (gap : gapFollows rest = true) :
    container? column ('-' :: rest) = some (.items column rest) := by
  simp [container?, gap]

theorem container?_field (column : Nat) {name : String} (word : name.toList.all isWord = true)
    (gap : gapFollows rest = true) :
    container? column (name.toList ++ ':' :: rest) = some (.fields column name rest) := by
  have other := head?_name word (c := '-') rfl (by decide) rest
  rw [container?, decide_eq_false other, Bool.false_and, if_neg Bool.false_ne_true,
    readName?_name word gap]
  rfl

theorem nextLine?_newLine (column : Nat) {line : List Char} (visible : line.head? ≠ some ' ') :
    nextLine? (newLine column ++ line) = container? column line := by
  rw [newLine, List.cons_append, nextLine?, margin_blanks column visible,
    List.drop_left' List.length_replicate]

theorem nextLine?_item (column : Nat) (gap : gapFollows rest = true) :
    nextLine? (newLine column ++ '-' :: rest) = some (.items column rest) := by
  rw [nextLine?_newLine column (by simp), container?_item column gap]

theorem nextLine?_field (column : Nat) {name : String} (word : name.toList.all isWord = true)
    (gap : gapFollows rest = true) :
    nextLine? (newLine column ++ (name.toList ++ ':' :: rest)) =
      some (.fields column name rest) := by
  have visible := head?_name word (c := ' ') rfl (by decide) rest
  rw [nextLine?_newLine column visible, container?_field column word gap]

theorem Place.start?_items (indent : Nat) (place : Place) (gap : gapFollows rest = true) :
    place.start? indent (place.opening (place.itemIndent indent) ++ '-' :: rest) =
      some (.items (place.itemIndent indent) rest) := by
  cases place with
  | key length => exact nextLine?_item indent gap
  | dash => simp [Place.start?, Place.opening, Place.itemIndent, container?_item _ gap]

theorem Place.start?_fields (indent : Nat) (place : Place) {name : String}
    (word : name.toList.all isWord = true) (gap : gapFollows rest = true) :
    place.start? indent (place.opening (indent + 2) ++ (name.toList ++ ':' :: rest)) =
      some (.fields (indent + 2) name rest) := by
  cases place with
  | key length => exact nextLine?_field (indent + 2) word gap
  | dash => simp [Place.start?, Place.opening, container?_field _ word gap]

theorem Place.start?_scalar (indent : Nat) (place : Place) {text : List Char}
    (single : ∀ column, container? column text = none) :
    place.start? indent (' ' :: text) = some (.scalar text) := by
  cases place with
  | key length => rfl
  | dash => simp [Place.start?, single]

/-- What may stand behind a value: nothing that goes on with a sequence at the column `items` or
beyond, or with a scalar or a mapping at the column `fields` or beyond. -/
structure Outside (items fields : Nat) (rest : List Char) : Prop where
  closes : Closes fields rest
  noItem : ∀ column, items ≤ column → itemAt? column rest = none
  noField : ∀ column, fields ≤ column → fieldAt? column rest = none

theorem Outside.mono {items fields farItems farFields : Nat} (outside : Outside items fields rest)
    (beyondItems : items ≤ farItems) (beyondFields : fields ≤ farFields) :
    Outside farItems farFields rest where
  closes := by
    cases outside.closes with
    | nothing => exact .nothing
    | line lower => exact .line (Nat.lt_of_lt_of_le lower beyondFields)
  noItem column beyond := outside.noItem column (Nat.le_trans beyondItems beyond)
  noField column beyond := outside.noField column (Nat.le_trans beyondFields beyond)

theorem outside_nothing (items fields : Nat) : Outside items fields [] where
  closes := .nothing
  noItem _ _ := rfl
  noField _ _ := rfl

theorem closes_newLine {line : List Char} (visible : line.head? ≠ some ' ') :
    Closes (column + 1) (newLine column ++ line) := by
  rw [newLine, List.cons_append]
  exact .line (by rw [margin_blanks column visible]; exact Nat.lt_succ_self column)

/-- The next item ends what is deeper than its dash. -/
theorem outside_item (column : Nat) (gap : gapFollows rest = true) :
    Outside (column + 1) (column + 1) (newLine column ++ '-' :: rest) where
  closes := closes_newLine (by simp)
  noItem other beyond := by
    rw [itemAt?, nextLine?_item column gap]
    exact if_neg (Nat.ne_of_lt beyond)
  noField other _ := by rw [fieldAt?, nextLine?_item column gap]

/-- The next entry ends what is deeper than its name, and each sequence. -/
theorem outside_field (column : Nat) {name : String} (word : name.toList.all isWord = true)
    (gap : gapFollows rest = true) :
    Outside 0 (column + 1) (newLine column ++ (name.toList ++ ':' :: rest)) where
  closes := closes_newLine (head?_name word rfl (by decide) rest)
  noItem other _ := by rw [itemAt?, nextLine?_field column word gap]
  noField other beyond := by
    rw [fieldAt?, nextLine?_field column word gap]
    exact if_neg (Nat.ne_of_lt beyond)

theorem readName?_other {c : Char} (notWord : isWord c = false) (notColon : c ≠ ':')
    (rest : List Char) : readName? (c :: rest) = none := by
  simp only [readName?, List.dropWhile_cons_of_neg (ne_true_of_eq_false notWord)]
  split
  · rename_i same
    exact absurd (List.cons.inj same).1 notColon
  · rfl

theorem isSome_readName?_word {c : Char} (word : isWord c = true) (rest : List Char) :
    (readName? (c :: rest)).isSome = (readName? rest).isSome := by
  simp only [readName?, List.dropWhile_cons_of_pos word]
  split
  · split <;> rfl
  · rfl

theorem gapFollows_of_readName? (named : (readName? (':' :: rest)).isSome) :
    gapFollows rest = true := by
  cases gap : gapFollows rest with
  | true => rfl
  | false => simp [readName?, isWord, gap] at named

theorem readName?_closes {indent : Nat} (closes : Closes indent rest) : readName? rest = none := by
  cases closes with
  | nothing => rfl
  | line lower => exact readName?_other rfl (by decide) _

theorem gapFollows_plainFrom {indent : Nat} {text : List Char} {afterBlank : Bool}
    (gap : gapFollows (plainFrom indent column afterBlank text ++ rest) = true) :
    gapFollows text = true := by
  cases text with
  | nil => rfl
  | cons c text =>
      by_cases blank : c = ' '
      · simp [blank, gapFollows, isGap]
      · simpa [plainFrom, blank, gapFollows] using gap

/-- A plain text is taken for the name of an entry only if it holds the end of one. -/
theorem exists_colon_of_readName? {indent : Nat} (closes : Closes indent rest) {text : List Char}
    {afterBlank : Bool}
    (named : (readName? (plainFrom indent column afterBlank text ++ rest)).isSome) :
    ∃ front back, text = front ++ ':' :: back ∧ gapFollows back = true := by
  induction text generalizing column afterBlank with
  | nil =>
      rw [plainFrom, List.nil_append, readName?_closes closes] at named
      cases named
  | cons c text ih =>
      rw [plainFrom] at named
      split at named
      · split at named
        · rw [newLine, List.cons_append, List.cons_append, readName?_other rfl (by decide)] at named
          cases named
        · rw [List.cons_append, readName?_other rfl (by decide)] at named
          cases named
      rw [List.cons_append] at named
      cases word : isWord c with
      | true =>
          rw [isSome_readName?_word word] at named
          obtain ⟨front, back, rfl, gap⟩ := ih named
          exact ⟨c :: front, back, rfl, gap⟩
      | false =>
          by_cases colon : c = ':'
          · subst colon
            exact ⟨[], text, rfl, gapFollows_plainFrom (gapFollows_of_readName? named)⟩
          · rw [readName?_other word colon] at named
            cases named

theorem holdsStructure_colon (before : Char) (front : List Char) (gap : gapFollows rest = true) :
    holdsStructure (before :: (front ++ ':' :: rest)) = true := by
  induction front generalizing before with
  | nil => simp [holdsStructure, gap]
  | cons c front ih => simp [holdsStructure, ih]

theorem startsAsStructure_mark {c : Char} (mark : c = ':' ∨ c = '-')
    (gap : gapFollows rest = true) : startsAsStructure (c :: rest) = true := by
  rw [startsAsStructure.eq_def]
  split
  · rfl
  · rfl
  · rename_i same
    obtain ⟨rfl, rfl⟩ := List.cons.inj same
    rcases mark with rfl | rfl <;> simp [gap]
  · rename_i empty
    cases empty

theorem container?_eq_none {line : List Char}
    (noDash : line.head? = some '-' → gapFollows line.tail = false)
    (unnamed : readName? line = none) : container? column line = none := by
  rw [container?, unnamed, if_neg]
  · rfl
  · simpa using noDash

theorem container?_other {c : Char} (notWord : isWord c = false) (notColon : c ≠ ':')
    (noDash : c = '-' → gapFollows rest = false) : container? column (c :: rest) = none :=
  container?_eq_none (by simpa using noDash) (readName?_other notWord notColon rest)

theorem container?_plainFrom {indent : Nat} (closes : Closes indent rest) {text : List Char}
    (starts : startsAsStructure text = false) (holds : holdsStructure text = false)
    (afterBlank : Bool) (start : Nat) :
    container? start (plainFrom indent column afterBlank text ++ rest) = none := by
  refine container?_eq_none (fun dash => ?_) ?_
  · cases text with
    | nil => cases closes <;> cases dash
    | cons c text =>
        by_cases blank : c = ' '
        · rw [plainFrom, if_pos blank] at dash
          split at dash <;> cases dash
        · rw [plainFrom, if_neg blank, List.cons_append] at dash ⊢
          obtain rfl : c = '-' := Option.some.inj dash
          refine Bool.of_not_eq_true fun gap => ?_
          rw [startsAsStructure_mark (Or.inr rfl) (gapFollows_plainFrom gap)] at starts
          cases starts
  · rw [← Option.not_isSome_iff_eq_none]
    intro named
    obtain ⟨front, back, rfl, gap⟩ := exists_colon_of_readName? closes named
    cases front with
    | nil =>
        rw [List.nil_append, startsAsStructure_mark (Or.inl rfl) gap] at starts
        cases starts
    | cons c front =>
        rw [List.cons_append, holdsStructure_colon c front gap] at holds
        cases holds

theorem container?_textScalar {indent : Nat} (closes : Closes indent rest) (text : Text)
    (start : Nat) : container? start (textScalar indent column text ++ rest) = none := by
  have quoted : ∀ text : Text,
      container? start (doubleQuoted indent column text ++ rest) = none := fun text =>
    container?_other rfl (by decide) fun dash => absurd dash (by decide)
  cases text with
  | loose text => exact quoted (.loose text)
  | plain string =>
      unfold textScalar
      dsimp only
      split
      · rename_i plain
        simp only [allowsPlain, Bool.and_eq_true, Bool.not_eq_true'] at plain
        exact container?_plainFrom closes plain.1.1.2 plain.1.2 false start
      split
      · exact container?_other rfl (by decide) fun dash => absurd dash (by decide)
      · exact quoted (.plain string)

theorem isWord_of_isDigit {digit : Char} (numeral : Json.isDigit digit = true) :
    isWord digit = false := by
  simp only [Json.isDigit, Bool.and_eq_true, decide_eq_true_eq] at numeral
  have low : ¬ 'a' ≤ digit := fun letter => absurd (Char.le_trans letter numeral.2) (by decide)
  have other : digit ≠ '_' := by
    rintro rfl
    exact absurd numeral (by decide)
  simp [isWord, low, other]

theorem container?_intDigits (value : Int) (start : Nat) :
    container? start (Digits.intDigits value ++ rest) = none := by
  have ne {c digit : Char} (numeral : Json.isDigit digit = true) (other : Json.isDigit c = false) :
      digit ≠ c := by
    rintro rfl
    simp [numeral] at other
  cases value with
  | ofNat value =>
      obtain ⟨digit, digits, written, numeral⟩ := Json.exists_toDigits_eq_cons value
      rw [Digits.intDigits, written]
      exact container?_other (isWord_of_isDigit numeral) (ne numeral rfl)
        fun dash => absurd dash (ne numeral rfl)
  | negSucc value =>
      obtain ⟨digit, digits, written, numeral⟩ := Json.exists_toDigits_eq_cons (value + 1)
      rw [Digits.intDigits, written]
      refine container?_other rfl (by decide) fun _ => ?_
      simp [gapFollows, isGap, ne numeral (c := ' ') rfl, ne numeral (c := '\n') rfl]

theorem gapFollows_node (indent : Nat) (place : Place) (value : Json) (rest : List Char) :
    gapFollows (node indent place value ++ rest) = true := by
  have opened (column : Nat) (later : List Char) :
      gapFollows (place.opening column ++ later) = true := by
    cases place <;> rfl
  match value with
  | .null | .int _ | .decimal _ _ | .string _ | .arr [] | .obj [] => rw [node]; rfl
  | .bool value => cases value <;> rfl
  | .arr (item :: rest) => simp [node, opened]
  | .obj ((name, value) :: rest) => simp [node, opened]

def behindDash (column : Nat) : List Json → List Char
  | [] => []
  | item :: rest => node column .dash item ++ items column rest

def behindName (column : Nat) : List (String × Json) → List Char
  | [] => []
  | (name, value) :: rest => node column (.key name.length) value ++ fields column rest

theorem node_arr (indent : Nat) (place : Place) (item : Json) (others : List Json) :
    node indent place (.arr (item :: others)) = place.opening (place.itemIndent indent) ++
      '-' :: behindDash (place.itemIndent indent) (item :: others) := by
  simp [node, behindDash]

theorem node_obj (indent : Nat) (place : Place) (name : String) (value : Json)
    (others : List (String × Json)) : node indent place (.obj ((name, value) :: others)) =
      place.opening (indent + 2) ++
        (name.toList ++ ':' :: behindName (indent + 2) ((name, value) :: others)) := by
  simp [node, behindName]

theorem behindDash_cons_cons (column : Nat) (item next : Json) (others : List Json) :
    behindDash column (item :: next :: others) =
      node column .dash item ++ (newLine column ++ '-' :: behindDash column (next :: others)) := by
  simp [behindDash, items]

theorem behindName_cons_cons (column : Nat) (name next : String) (value following : Json)
    (others : List (String × Json)) :
    behindName column ((name, value) :: (next, following) :: others) =
      node column (.key name.length) value ++ (newLine column ++
        (next.toList ++ ':' :: behindName column ((next, following) :: others))) := by
  simp [behindName, fields]

theorem gapFollows_behindDash (column : Nat) (item : Json) (others : List Json)
    (rest : List Char) : gapFollows (behindDash column (item :: others) ++ rest) = true := by
  rw [behindDash, List.append_assoc, gapFollows_node]

theorem gapFollows_behindName (column : Nat) (name : String) (value : Json)
    (others : List (String × Json)) (rest : List Char) :
    gapFollows (behindName column ((name, value) :: others) ++ rest) = true := by
  rw [behindName, List.append_assoc, gapFollows_node]

theorem itemAt?_item (column : Nat) (gap : gapFollows rest = true) :
    itemAt? column (newLine column ++ '-' :: rest) = some rest := by
  rw [itemAt?, nextLine?_item column gap]
  exact if_pos rfl

theorem fieldAt?_field (column : Nat) {name : String} (word : name.toList.all isWord = true)
    (gap : gapFollows rest = true) :
    fieldAt? column (newLine column ++ (name.toList ++ ':' :: rest)) = some (name, rest) := by
  rw [fieldAt?, nextLine?_field column word gap]
  exact if_pos rfl

theorem readNode_scalar (fuel : Nat) {indent : Nat} (place : Place) {text : List Char}
    {value : Json} (single : ∀ start, container? start text = none)
    (read : readScalar (indent + 2) text = some (value, rest)) :
    readNode (fuel + 1) indent place (' ' :: text) = some (value, rest) := by
  rw [readNode, Place.start?_scalar indent place single]
  exact read

theorem readNode_brackets (fuel : Nat) {indent : Nat} (place : Place)
    (closes : Closes (indent + 2) rest) {left right : Char}
    (brackets : left = '[' ∧ right = ']' ∨ left = '\x7b' ∧ right = '\x7d') :
    readNode (fuel + 1) indent place (' ' :: ([left, right] ++ rest)) =
      some (plainValue [left, right], rest) := by
  rcases brackets with ⟨rfl, rfl⟩ | ⟨rfl, rfl⟩ <;>
    exact readNode_scalar fuel place
      (fun _ => container?_other rfl (by decide) fun dash => absurd dash (by decide))
      (readScalar_word closes (by decide) (by decide) (by decide))

theorem readNode_letters (fuel : Nat) {indent : Nat} (place : Place)
    (closes : Closes (indent + 2) rest) {c : Char} {later : List Char}
    (letters : (c :: later).all isWord = true) :
    readNode (fuel + 1) indent place (' ' :: (c :: later ++ rest)) =
      some (plainValue (c :: later), rest) := by
  rw [List.all_eq_true] at letters
  have ne {letter other : Char} (member : letter ∈ c :: later) (notWord : isWord other = false) :
      letter ≠ other := by
    rintro rfl
    simp [letters letter member] at notWord
  have unnamed (word : List Char) (letters : ∀ letter ∈ word, isWord letter = true) :
      readName? (word ++ rest) = none := by
    induction word with
    | nil => exact readName?_closes closes
    | cons first word ih =>
        rw [List.forall_mem_cons] at letters
        have unnamed := isSome_readName?_word letters.1 (word ++ rest)
        rw [ih letters.2] at unnamed
        exact Option.not_isSome_iff_eq_none.mp (by simp [unnamed])
  refine readNode_scalar fuel place (fun start => container?_eq_none ?_ (unnamed _ letters)) ?_
  · intro dash
    exact absurd (Option.some.inj dash) (ne List.mem_cons_self rfl)
  · exact readScalar_word closes (ne List.mem_cons_self rfl) (ne List.mem_cons_self rfl)
      fun member => ne member rfl rfl

mutual

/-- A value is read back from its layout, whatever follows that does not go on with it. -/
theorem readNode_node : ∀ (value : Json) (fuel indent : Nat) (place : Place) (rest : List Char),
    Reversible value → Outside (place.itemIndent indent) (indent + 2) rest →
      (node indent place value).length < fuel →
        readNode fuel indent place (node indent place value ++ rest) = some (value, rest)
  | _, 0, _, _, _, _, _, enough => absurd enough (Nat.not_lt_zero _)
  | .null, fuel + 1, indent, place, rest, _, outside, _ =>
      readNode_letters fuel place outside.closes rfl
  | .bool true, fuel + 1, indent, place, rest, _, outside, _ =>
      readNode_letters fuel place outside.closes rfl
  | .bool false, fuel + 1, indent, place, rest, _, outside, _ =>
      readNode_letters fuel place outside.closes rfl
  | .int value, fuel + 1, indent, place, rest, _, outside, _ => by
      rw [node, List.cons_append]
      exact readNode_scalar fuel place (container?_intDigits value)
        (readScalar_intDigits outside.closes value)
  | .string text, fuel + 1, indent, place, rest, _, outside, _ => by
      have read := readScalar_textScalar (Nat.succ_pos (indent + 1)) outside.closes
        (place.column indent + 1) text
      rw [node, List.cons_append]
      exact readNode_scalar fuel place (container?_textScalar outside.closes text) read
  | .arr [], fuel + 1, indent, place, rest, _, outside, _ =>
      readNode_brackets fuel place outside.closes (Or.inl ⟨rfl, rfl⟩)
  | .arr (item :: others), fuel + 1, indent, place, rest, reversible, outside, enough => by
      have inner : Outside (place.itemIndent indent) (place.itemIndent indent + 2) rest :=
        outside.mono (Nat.le_refl _) (by cases place <;> simp [Place.itemIndent])
      have opens : 0 < (place.opening (place.itemIndent indent)).length := by
        cases place <;> simp [Place.opening, newLine]
      simp only [node_arr, List.length_append, List.length_cons] at enough
      have read := readItems_behindDash (item :: others) fuel (place.itemIndent indent) rest
        (List.cons_ne_nil _ _) reversible inner (by omega)
      rw [node_arr, List.append_assoc, List.cons_append, readNode,
        Place.start?_items indent place (gapFollows_behindDash _ _ _ _)]
      simp only [read]
      rfl
  | .obj [], fuel + 1, indent, place, rest, _, outside, _ =>
      readNode_brackets fuel place outside.closes (Or.inr ⟨rfl, rfl⟩)
  | .obj ((name, value) :: others), fuel + 1, indent, place, rest, reversible, outside, enough => by
      have inner : Outside (indent + 2) (indent + 2) rest :=
        outside.mono (by cases place <;> simp [Place.itemIndent]) (Nat.le_refl _)
      have opens : 0 < (place.opening (indent + 2)).length := by
        cases place <;> simp [Place.opening, newLine]
      simp only [node_obj, List.length_append, List.length_cons] at enough
      have read := readFields_behindName ((name, value) :: others) fuel (indent + 2) name rest rfl
        reversible inner (by omega)
      rw [node_obj, List.append_assoc, List.append_assoc, List.cons_append, readNode,
        Place.start?_fields indent place reversible.1 (gapFollows_behindName _ _ _ _ _)]
      simp only [read]
      rfl

theorem readItems_behindDash : ∀ (values : List Json) (fuel column : Nat) (rest : List Char),
    values ≠ [] → AllReversible values → Outside column (column + 2) rest →
      (behindDash column values).length + 1 < fuel →
        readItems fuel column (behindDash column values ++ rest) = some (values, rest)
  | [], _, _, _, nonempty, _, _, _ => absurd rfl nonempty
  | _, 0, _, _, _, _, _, enough => absurd enough (Nat.not_lt_zero _)
  | [item], fuel + 1, column, rest, _, reversible, outside, enough => by
      have inner := outside.mono (Nat.le_add_right column 2) (Nat.le_refl _)
      simp only [behindDash, items, List.append_nil] at enough
      have read := readNode_node item fuel column .dash rest reversible.1 inner (by omega)
      rw [behindDash, items, List.append_nil, readItems, read, Option.bind_some]
      simp only [outside.noItem column (Nat.le_refl column)]
  | item :: next :: others, fuel + 1, column, rest, _, reversible, outside, enough => by
      -- the first item is followed by the next dash, the last one by what follows the sequence
      have gap := gapFollows_behindDash column next others rest
      have inner := (outside_item column gap).mono (Nat.le_succ _) (Nat.le_succ _)
      simp only [behindDash_cons_cons, List.length_append, List.length_cons] at enough
      have first := readNode_node item fuel column .dash _ reversible.1 inner (by omega)
      have later := readItems_behindDash (next :: others) fuel column rest (List.cons_ne_nil _ _)
        reversible.2 outside (by omega)
      rw [behindDash_cons_cons, List.append_assoc, List.append_assoc, List.cons_append, readItems,
        first, Option.bind_some]
      simp only [itemAt?_item column gap, later]
      rfl

theorem readFields_behindName : ∀ (entries : List (String × Json)) (fuel column : Nat)
    (name : String) (rest : List Char), entries.head?.map Prod.fst = some name →
      FieldsReversible entries → Outside column column rest →
        (behindName column entries).length + 1 < fuel →
          readFields fuel column name (behindName column entries ++ rest) = some (entries, rest)
  | [], _, _, _, _, named, _, _, _ => absurd named nofun
  | _, 0, _, _, _, _, _, _, enough => absurd enough (Nat.not_lt_zero _)
  | [(name, value)], fuel + 1, column, _, rest, rfl, reversible, outside, enough => by
      have inner := outside.mono (Nat.le_refl column) (Nat.le_add_right column 2)
      simp only [behindName, fields, List.append_nil] at enough
      have read := readNode_node value fuel column (.key name.length) rest reversible.2.1 inner
        (by omega)
      rw [behindName, fields, List.append_nil, readFields, read, Option.bind_some]
      simp only [outside.noField column (Nat.le_refl column)]
  | (name, value) :: (next, following) :: others, fuel + 1, column, _, rest, rfl, reversible,
      outside, enough => by
      have gap := gapFollows_behindName column next following others rest
      have word := reversible.2.2.1
      have inner := (outside_field column word gap).mono (Nat.zero_le column) (Nat.le_succ _)
      simp only [behindName_cons_cons, List.length_append, List.length_cons] at enough
      have first := readNode_node value fuel column (.key name.length) _ reversible.2.1 inner
        (by omega)
      have later := readFields_behindName ((next, following) :: others) fuel column next rest rfl
        reversible.2.2 outside (by omega)
      rw [behindName_cons_cons, List.append_assoc, List.append_assoc, List.append_assoc,
        List.cons_append, readFields, first, Option.bind_some]
      simp only [fieldAt?_field column word gap, later]
      rfl

end

theorem parse?_document (entries : List (String × Json)) (reversible : FieldsReversible entries) :
    parse? (document entries) = some entries := by
  match entries with
  | [] => rfl
  | (name, value) :: others =>
      have written : document ((name, value) :: others) =
          name.toList ++ ':' :: (behindName 0 ((name, value) :: others) ++ ['\n']) := by
        simp [document, behindName]
      have nonempty : document ((name, value) :: others) ≠ document [] := by
        intro same
        have brace : (document ((name, value) :: others)).head? = some '\x7b' := by rw [same]; rfl
        rw [written] at brace
        exact head?_name reversible.1 rfl (by decide) _ brace
      have enough : (behindName 0 ((name, value) :: others)).length + 1 <
          (document ((name, value) :: others)).length := by
        rw [written]
        simp only [List.length_append, List.length_cons, List.length_nil]
        omega
      have read := readFields_behindName ((name, value) :: others) _ 0 name [] rfl reversible
        (outside_nothing 0 0) enough
      rw [List.append_nil] at read
      rw [parse?, if_neg nonempty]
      rw [written] at read ⊢
      rw [readName?_name reversible.1 (gapFollows_behindName _ _ _ _ _), Option.bind_some]
      simp only [List.dropLast_concat, read]

example : parse? "a:\n- 'null'\n- - null\n".toList =
    some [("a", .arr [.str "null", .arr [.null]])] := by cbv

theorem node_inj {indent : Nat} {place : Place} {value other : Json}
    (reversible : Reversible value) (likewise : Reversible other)
    (same : node indent place value = node indent place other) : value = other := by
  have outside := outside_nothing (place.itemIndent indent) (indent + 2)
  have read := readNode_node value _ indent place [] reversible outside (Nat.lt_succ_self _)
  have again := readNode_node other _ indent place [] likewise outside (Nat.lt_succ_self _)
  rw [same, again] at read
  exact (Prod.mk.inj (Option.some.inj read)).1.symm

end Yaml

namespace Target

mutual

theorem reversible_label : ∀ target : Target, Yaml.Reversible target.label
  | .discard => trivial
  | .slot _ name | .sequence _ name | .external _ name _ => by
      cases name <;> trivial
  | .unusable _ _ => trivial
  | .tuple parts => reversible_labels parts

theorem reversible_labels : ∀ parts : List Target, Yaml.AllReversible (labels parts)
  | [] => trivial
  | part :: parts => ⟨reversible_label part, reversible_labels parts⟩

end

end Target

variable {F G σ τ : Type}

theorem StepSummary.reversible_document {summary : StepSummary}
    (labelled : Yaml.Reversible summary.label) : Yaml.Reversible summary.document :=
  ⟨by decide, trivial, by decide, trivial, by decide, trivial, by decide, trivial, by decide,
    labelled, by decide, trivial, trivial⟩

namespace Plan

theorem reversible_fields (plan : Plan) (world : World F σ) :
    Yaml.FieldsReversible (plan.fields world) := by
  have steps : Yaml.AllReversible ((plan.summariesIn world).map StepSummary.document) := by
    rw [Yaml.allReversible_iff, List.forall_mem_map]
    exact forall_mem_summarizeFrom
      (fun _ step => StepSummary.reversible_document step.target.reversible_label) 0 _
  exact ⟨by decide, steps, by decide, trivial, trivial⟩

/-- The document of a plan is read back from its YAML text. -/
theorem parse?_yamlText (plan : Plan) (world : World F σ) :
    Yaml.parse? (plan.yamlText world).toList = some (plan.fields world) := by
  rw [yamlText, String.toList_ofList, Yaml.parse?_document _ (plan.reversible_fields world)]

/-- The YAML text of a plan loses nothing: two plans have the same text just if they have the same
document. So it is for any dump that writes the documents of plans as the emitter does. At any
place, two targets have the same text just if they have the same label. -/
theorem yamlText_eq_iff (dump : Json → String)
    (emits : ∀ total summaries, dump (.obj (planFields total summaries)) =
      String.ofList (Yaml.document (planFields total summaries)))
    (plan other : Plan) (world : World F σ) (elsewhere : World G τ) :
    (dump (plan.document world) = dump (other.document elsewhere) ↔
        plan.document world = other.document elsewhere) ∧
      (plan.yamlText world = other.yamlText elsewhere ↔
        plan.document world = other.document elsewhere) ∧
      ∀ (indent : Nat) (place : Yaml.Place) (target another : Target),
        Yaml.node indent place target.label = Yaml.node indent place another.label ↔
          target.label = another.label := by
  have lossless : plan.yamlText world = other.yamlText elsewhere ↔
      plan.document world = other.document elsewhere := by
    constructor <;> intro same
    · have read := plan.parse?_yamlText world
      rw [same, other.parse?_yamlText elsewhere] at read
      rw [document, document, Option.some.inj read]
    · rw [yamlText, yamlText, Json.obj.inj same]
  refine ⟨?_, lossless, fun indent place target another => ⟨?_, fun same => by rw [same]⟩⟩
  · rw [document, document, fields, fields, emits, emits]
    exact lossless
  · exact Yaml.node_inj target.reversible_label another.reversible_label

/-- The emitter, which writes nothing for values that are no mappings. -/
def mappingText : Json → String
  | .obj fields => String.ofList (Yaml.document fields)
  | _ => ""

/-- A state with a single step, which binds the given target. -/
def bindingWorld (target : Target) : World Bool PUnit :=
  { contexts := [[{ ownTarget := target, source := .function false }]], client := () }

/-- A target that is called like the word for null is told from one that is not there. -/
theorem yamlText_eq_iff_null :
    let plan : Plan := ⟨[⟨0, 0⟩]⟩
    (∀ total summaries, mappingText (.obj (planFields total summaries)) =
      String.ofList (Yaml.document (planFields total summaries))) ∧
    mappingText (plan.document (bindingWorld (.slot "x" (some (.plain "null"))))) ≠
      mappingText (plan.document (bindingWorld .discard)) := by
  intro plan
  refine ⟨fun _ _ => rfl, fun same => ?_⟩
  have documents := (yamlText_eq_iff mappingText (fun _ _ => rfl) plan plan _ _).1.mp same
  simp [document, fields, planFields, plan, summariesIn, stepsIn, World.step?, World.steps,
    bindingWorld, summarizeFrom, Step.summary, StepSummary.document, Step.target, Target.label,
    Target.labelOr] at documents

end Plan

end Bindery
