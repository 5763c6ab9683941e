import Bindery.Proofs.Matching
import Bindery.Proofs.RoundTrip
import Mathlib.Algebra.Group.Nat.Defs

set_option autoImplicit false

namespace Bindery.Yaml

def margin (line : List Char) : Nat :=
  (line.takeWhile (· = ' ')).length

theorem margin_blanks (count : Nat) {rest : List Char} (visible : rest.head? ≠ some ' ') :
    margin (List.replicate count ' ' ++ rest) = count := by
  have stopped : rest.takeWhile (· = ' ') = [] := by
    cases rest with
    | nil => rfl
    | cons c rest => exact List.takeWhile_cons_of_neg (by simpa using visible)
  rw [margin, List.takeWhile_append_of_pos (by simp), stopped, List.append_nil,
    List.length_replicate]

/-- What stands behind a scalar: nothing, or a line that starts before a given column. -/
inductive Closes (indent : Nat) : List Char → Prop
  | nothing : Closes indent []
  | line {line : List Char} (lower : margin line < indent) : Closes indent ('\n' :: line)

/-- A character or a code point put before those that are read. -/
def kept {α : Type} (c : α) (read : List α × List Char) : List α × List Char :=
  (c :: read.1, read.2)

variable {indent : Nat} {rest : List Char}

section Plain

/-- Reads a plain text up to a line that starts before the given column. Any other line break
stands for a blank, and the blanks behind it for nothing. -/
def readPlain (indent : Nat) (fresh : Bool) : List Char → List Char × List Char
  | [] => ([], [])
  | c :: rest =>
      if c = '\n' then
        if indent ≤ margin rest then kept ' ' (readPlain indent true rest) else ([], c :: rest)
      else if fresh && c = ' ' then readPlain indent true rest
      else kept c (readPlain indent false rest)

theorem readPlain_closes (closes : Closes indent rest) (fresh : Bool) :
    readPlain indent fresh rest = ([], rest) := by
  cases closes with
  | nothing => rfl
  | line lower => rw [readPlain, if_pos rfl, if_neg (Nat.not_le.mpr lower)]

theorem readPlain_blanks (count : Nat) (rest : List Char) :
    readPlain indent true (List.replicate count ' ' ++ rest) = readPlain indent true rest := by
  induction count with
  | zero => rfl
  | succ count ih => simpa [List.replicate_succ, readPlain] using ih

theorem readPlain_cons {fresh : Bool} {c : Char} (visible : c ≠ '\n')
    (starts : fresh = true → c ≠ ' ') (rest : List Char) :
    readPlain indent fresh (c :: rest) = kept c (readPlain indent false rest) := by
  rw [readPlain, if_neg visible, if_neg]
  cases fresh <;> simp_all

theorem readPlain_word (closes : Closes indent rest) {word : List Char} (single : '\n' ∉ word) :
    readPlain indent false (word ++ rest) = (word, rest) := by
  induction word with
  | nil => exact readPlain_closes closes false
  | cons c word ih =>
      rw [List.mem_cons, not_or] at single
      rw [List.cons_append, readPlain_cons (Ne.symm single.1) Bool.noConfusion, ih single.2]
      rfl

theorem readPlain_newLine {later : List Char} (visible : later.head? ≠ some ' ') (fresh : Bool) :
    readPlain indent fresh (newLine indent ++ later) = kept ' ' (readPlain indent true later) := by
  rw [newLine, List.cons_append, readPlain, if_pos rfl, margin_blanks indent visible,
    if_pos (Nat.le_refl indent), readPlain_blanks]

/-- A plain text is read back, wherever it was folded. -/
theorem readPlain_plainFrom (closes : Closes indent rest) {text : List Char}
    (single : '\n' ∉ text) (column : Nat) (afterBlank fresh : Bool)
    (starts : fresh = true → text.head? ≠ some ' ') :
    readPlain indent fresh (plainFrom indent column afterBlank text ++ rest) = (text, rest) := by
  induction text generalizing column afterBlank fresh with
  | nil => exact readPlain_closes closes fresh
  | cons c text ih =>
      rw [List.mem_cons, not_or] at single
      have visible : c ≠ '\n' := Ne.symm single.1
      have first : fresh = true → c ≠ ' ' := by simpa using starts
      rw [plainFrom]
      split
      · rename_i blank
        subst blank
        split
        · rename_i folds
          obtain ⟨next, text, rfl, inked⟩ : ∃ next later, text = next :: later ∧ next ≠ ' ' := by
            cases text with
            | nil => simp at folds
            | cons next later => exact ⟨next, later, rfl, by simp_all⟩
          have shown : (plainFrom indent indent true (next :: text) ++ rest).head? ≠ some ' ' := by
            simp [plainFrom, inked]
          rw [List.append_assoc, readPlain_newLine shown,
            ih single.2 indent true true (fun _ => by simpa using inked)]
          rfl
        · rw [List.cons_append, readPlain_cons visible first,
            ih single.2 _ _ false Bool.noConfusion]
          rfl
      · rw [List.cons_append, readPlain_cons visible first, ih single.2 _ _ false Bool.noConfusion]
        rfl

end Plain

section Single

/-- What stands directly before a place between single quotes, for as long as it matters: a quote,
a line break that stands for a blank, or a run of them that stands for breaks. -/
inductive Seam where
  | none
  | quote
  | blank
  | breaks
  deriving DecidableEq

/-- Reads what stands between single quotes, from behind the first quote to behind the last. A
line break on its own stands for a blank, and the first of several for nothing. -/
def readSingle (seam : Seam) : List Char → Option (List Char × List Char)
  | [] => if seam = .quote then some ([], []) else none
  | c :: rest =>
      if seam = .quote then
        if c = '\x27' then (readSingle .none rest).map (kept c) else some ([], c :: rest)
      else if c = '\x27' then readSingle .quote rest
      else if c = '\n' then
        if seam = .breaks then (readSingle .breaks rest).map (kept c)
        else if rest.head? = some '\n' then readSingle .breaks rest
        else (readSingle .blank rest).map (kept ' ')
      else if c = ' ' ∧ seam ≠ .none then readSingle seam rest
      else (readSingle .none rest).map (kept c)

/-- A seam fits between the character before it and the text behind it. -/
def Seam.Fits (before : Option Char) (text : List Char) : Seam → Prop
  | .none => before ≠ some '\n'
  | .quote => False
  | .blank => before ≠ some '\n' ∧ text.head? ≠ some ' '
  | .breaks => before = some '\n' ∧ text.head? ≠ some ' '

variable {seam : Seam} {before : Option Char} {text : List Char}

theorem Seam.fits_none {c : Char} (apart : c ≠ '\n') : Seam.none.Fits (some c) text := by
  simpa [Seam.Fits] using apart

theorem readSingle_end (fits : seam.Fits before text) (ends : rest.head? ≠ some '\x27') :
    readSingle seam ('\x27' :: rest) = some ([], rest) := by
  have closed : readSingle .quote rest = some ([], rest) := by
    cases rest with
    | nil => rfl
    | cons c rest => simp_all [readSingle]
  cases seam <;> simp_all [readSingle, Seam.Fits]

theorem readSingle_quote (fits : seam.Fits before text) (rest : List Char) :
    readSingle seam ('\x27' :: '\x27' :: rest) = (readSingle .none rest).map (kept '\x27') := by
  cases seam <;> simp_all [readSingle, Seam.Fits]

theorem readSingle_cons {c : Char} (fits : seam.Fits before (c :: text)) (notQuote : c ≠ '\x27')
    (notBreak : c ≠ '\n') (rest : List Char) :
    readSingle seam (c :: rest) = (readSingle .none rest).map (kept c) := by
  cases seam <;> simp_all [readSingle, Seam.Fits]

theorem readSingle_blanks (seam : Seam) (fresh : seam = .blank ∨ seam = .breaks) (count : Nat)
    (rest : List Char) :
    readSingle seam (List.replicate count ' ' ++ rest) = readSingle seam rest := by
  induction count with
  | zero => rfl
  | succ count ih =>
      rcases fresh with rfl | rfl <;> simpa [List.replicate_succ, readSingle] using ih

theorem readSingle_newLine (positive : 0 < indent) (fits : seam.Fits before text)
    (apart : before ≠ some '\n') (rest : List Char) :
    readSingle seam (newLine indent ++ rest) = (readSingle .blank rest).map (kept ' ') := by
  obtain ⟨width, rfl⟩ := Nat.exists_eq_succ_of_ne_zero (Nat.ne_of_gt positive)
  have skipped := readSingle_blanks .blank (Or.inl rfl) (width + 1) rest
  cases seam <;> simp_all [newLine, List.replicate_succ, readSingle, Seam.Fits]

/-- The line breaks of a text are read one by one, once the first of the run is passed. -/
theorem readSingle_break (fits : seam.Fits before text) (rest : List Char) :
    readSingle seam ((if before = some '\n' then [] else ['\n']) ++ '\n' :: rest) =
      (readSingle .breaks rest).map (kept '\n') := by
  cases seam <;> simp_all [readSingle, Seam.Fits]

/-- Without a pair, its second character does not stand behind its first. -/
theorem hasPair_behind {first second c : Char}
    (absent : hasPair first second (before.toList ++ c :: text) = false) :
    (before = some first → c ≠ second) ∧
      hasPair first second ((some c).toList ++ text) = false := by
  cases before <;> simp_all [hasPair]

theorem head?_of_hasPair {first second : Char}
    (absent : hasPair first second ((some first).toList ++ text) = false) :
    text.head? ≠ some second := by
  cases text with
  | nil => nofun
  | cons c text => simpa using (hasPair_behind absent).1 rfl

/-- What stands between single quotes is read back, wherever it was folded. -/
theorem readSingle_singleFrom (positive : 0 < indent) (ends : rest.head? ≠ some '\x27')
    (fits : seam.Fits before text)
    (noBreak : hasPair ' ' '\n' (before.toList ++ text) = false)
    (noBlank : hasPair '\n' ' ' (before.toList ++ text) = false) (column : Nat) :
    readSingle seam (singleFrom indent column before text ++ '\x27' :: rest) =
      some (text, rest) := by
  induction text generalizing column before seam with
  | nil => exact readSingle_end fits ends
  | cons c text ih =>
      -- no blank of the text stands next to a break, so a fold is never taken for one
      obtain ⟨notAfterBlank, noBreak⟩ := hasPair_behind noBreak
      obtain ⟨notAfterBreak, noBlank⟩ := hasPair_behind noBlank
      rw [singleFrom]
      split
      · rename_i blank
        subst blank
        have apart : before ≠ some '\n' := fun after => notAfterBreak after rfl
        split
        · rename_i folds
          have folded : Seam.blank.Fits (some ' ') text := by
            cases text <;> simp_all [Seam.Fits]
          rw [List.append_assoc, readSingle_newLine positive fits apart,
            ih folded noBreak noBlank]
          rfl
        · rw [List.cons_append, readSingle_cons fits (by decide) (by decide),
            ih (Seam.fits_none (by decide)) noBreak noBlank]
          rfl
      split
      · rename_i notBlank same
        subst same
        have broken : Seam.breaks.Fits (some '\n') text := ⟨rfl, head?_of_hasPair noBlank⟩
        dsimp only
        split
        · rw [List.append_assoc, List.cons_append, readSingle_break fits,
            ih broken noBreak noBlank]
          rfl
        · rw [List.append_assoc, List.append_assoc, newLine, List.cons_append,
            readSingle_break fits, readSingle_blanks .breaks (Or.inr rfl),
            ih broken noBreak noBlank]
          rfl
      split
      · rename_i quote
        subst quote
        rw [List.cons_append, List.cons_append, readSingle_quote fits,
          ih (Seam.fits_none (by decide)) noBreak noBlank]
        rfl
      · rename_i notBlank notBreak notQuote
        rw [List.cons_append, readSingle_cons fits notQuote notBreak,
          ih (Seam.fits_none notBreak) noBreak noBlank]
        rfl

end Single

section Double

/-- Where a reader between double quotes stands: in a line, at whose start blanks are skipped,
behind a backslash, or in a hexadecimal code with some digits left. -/
inductive Stance where
  | line (fresh : Bool)
  | escape
  | code (left value : Nat)

/-- The number of hexadecimal digits that follow a mark. -/
def codeLength? (mark : Char) : Option Nat :=
  [('x', 2), ('u', 4), ('U', 8)].lookup mark

def escaped? (letter : Char) : Option Nat :=
  ((' ', blankCode) :: shortEscapes.map Prod.swap).lookup letter

/-- Reads the code points that stand between double quotes, from behind the first quote to behind
the last. -/
def readDouble : Stance → List Char → Option (List Nat × List Char)
  | _, [] => none
  | .line fresh, c :: rest =>
      if fresh && c = ' ' then readDouble (.line true) rest
      else if c = '"' then some ([], rest)
      else if c = '\\' then readDouble .escape rest
      else (readDouble (.line false) rest).map (kept c.toNat)
  | .escape, c :: rest =>
      if c = '\n' then readDouble (.line true) rest
      -- a mark for a blank that is itself behind a fold
      else if c = '\\' && rest.head? = some '\n' then readDouble .escape rest
      else
        match codeLength? c with
        | some count => readDouble (.code count 0) rest
        | none => (escaped? c).bind fun meant => (readDouble (.line false) rest).map (kept meant)
  | .code left value, c :: rest =>
      (Digits.hexValue? c).bind fun digit =>
        let value := 16 * value + digit
        if left ≤ 1 then (readDouble (.line false) rest).map (kept value)
        else readDouble (.code (left - 1) value) rest

/-- A stance fits before a text. Only a blank is ever marked. -/
def Stance.Fits (text : List Nat) : Stance → Prop
  | .line fresh => fresh = true → text.head? ≠ some blankCode
  | .escape => text.head? = some blankCode
  | .code _ _ => False

def Stance.behind (next : Option Nat) : Stance :=
  if next = some blankCode then .escape else .line true

variable {stance : Stance} {text : List Nat}

theorem Stance.fits_behind (text : List Nat) : (Stance.behind text.head?).Fits text := by
  unfold Stance.behind
  split
  · assumption
  · exact fun _ => by assumption

theorem Stance.fits_line (text : List Nat) : (Stance.line false).Fits text := Bool.noConfusion

theorem readDouble_blanks (count : Nat) (rest : List Char) :
    readDouble (.line true) (List.replicate count ' ' ++ rest) = readDouble (.line true) rest := by
  induction count with
  | zero => rfl
  | succ count ih => simpa [List.replicate_succ, readDouble] using ih

theorem readDouble_fold (fits : stance.Fits text) (next : Option Nat) (rest : List Char) :
    readDouble stance (doubleFold indent next ++ rest) = readDouble (.behind next) rest := by
  have folded (rest : List Char) : readDouble stance ('\\' :: (newLine indent ++ rest)) =
      readDouble (.line true) rest := by
    rw [newLine, List.cons_append]
    cases stance with
    | line fresh => simp [readDouble, readDouble_blanks]
    | escape => simp [readDouble, readDouble_blanks]
    | code left value => exact fits.elim
  rw [doubleFold, Stance.behind]
  split
  · simp [folded, readDouble]
  · simp [folded]

theorem exists_char_of_escape? {code : Nat} (plain : escape? code = none) :
    ∃ c : Char, Char.ofNat code = c ∧ c.toNat = code ∧ c ≠ '"' ∧ c ≠ '\\' ∧ c ≠ '\n' := by
  have inside : 0x20 ≤ code ∧ code ≤ 0x7E := by
    unfold escape? at plain
    split at plain
    · cases plain
    split at plain
    · assumption
    split at plain
    · cases plain
    · split at plain <;> cases plain
  have same : (Char.ofNat code).toNat = code := toNat_ofNat_of_lt (by omega)
  refine ⟨Char.ofNat code, rfl, same, ?_, ?_, ?_⟩ <;> intro named <;> rw [named] at same <;>
    subst same <;> cases plain

theorem readDouble_cons {code : Nat} (plain : escape? code = none)
    (fits : stance.Fits (code :: text)) (rest : List Char) :
    readDouble stance (Char.ofNat code :: rest) =
      (readDouble (.line false) rest).map (kept code) := by
  obtain ⟨c, written, rfl, notQuote, notSlash, -⟩ := exists_char_of_escape? plain
  rw [written]
  cases stance with
  | line fresh =>
      rw [readDouble, if_neg, if_neg notQuote, if_neg notSlash]
      rw [Bool.and_eq_true, decide_eq_true_eq, not_and]
      rintro skips rfl
      exact fits skips rfl
  | escape =>
      have blank : c.toNat = blankCode := by simpa [Stance.Fits] using fits
      obtain rfl : c = ' ' := Char.toNat_inj.mp blank
      rfl
  | code left value => exact fits.elim

theorem hexValue?_toUpper (value : Nat) (small : value < 16) :
    Digits.hexValue? (Digits.hexDigit value).toUpper = some value := by
  have all : ∀ value < 16, Digits.hexValue? (Digits.hexDigit value).toUpper = some value := by
    decide
  exact all value small

theorem upperDigits_succ (count number : Nat) : upperDigits (count + 1) number =
    upperDigits count (number / 16) ++ [(Digits.hexDigit (number % 16)).toUpper] := by
  rw [upperDigits, Digits.hexDigits, List.map_append, List.map_singleton, upperDigits]

/-- All digits of a number but those that are left are taken into the code. -/
theorem readDouble_digits (count left number : Nat) (rest : List Char) :
    readDouble (.code (count + (left + 1)) 0) (upperDigits count number ++ rest) =
      readDouble (.code (left + 1) (number % 16 ^ count)) rest := by
  induction count generalizing left number rest with
  | zero => simp [upperDigits, Digits.hexDigits, Nat.mod_one]
  | succ count ih =>
      have regrouped : count + 1 + (left + 1) = count + (left + 1 + 1) := by omega
      have taken : 16 * (number / 16 % 16 ^ count) + number % 16 = number % 16 ^ (count + 1) := by
        rw [Nat.pow_succ', Nat.mod_mul, Nat.add_comm]
      rw [upperDigits_succ, List.append_assoc, List.singleton_append, regrouped, ih, readDouble,
        hexValue?_toUpper _ (Nat.mod_lt _ (by decide)), Option.bind_some]
      simp [taken]

theorem readDouble_code (count number : Nat) (rest : List Char) :
    readDouble (.code (count + 1) 0) (upperDigits (count + 1) number ++ rest) =
      (readDouble (.line false) rest).map (kept (number % 16 ^ (count + 1))) := by
  have taken : 16 * (number / 16 % 16 ^ count) + number % 16 = number % 16 ^ (count + 1) := by
    rw [Nat.pow_succ', Nat.mod_mul, Nat.add_comm]
  rw [upperDigits_succ, List.append_assoc, List.singleton_append,
    readDouble_digits count 0 (number / 16), readDouble,
    hexValue?_toUpper _ (Nat.mod_lt _ (by decide)), Option.bind_some]
  simp [taken]

theorem escape?_cases {code : Nat} {form : List Char} (bounded : code < codeLimit)
    (escaped : escape? code = some form) :
    (∃ letter, form = ['\\', letter] ∧ letter ≠ '\n' ∧ codeLength? letter = none ∧
        escaped? letter = some code) ∨
      ∃ mark count, mark ≠ '\n' ∧ mark ≠ '\\' ∧ codeLength? mark = some (count + 1) ∧
        code < 16 ^ (count + 1) ∧ form = '\\' :: mark :: upperDigits (count + 1) code := by
  unfold escape? at escaped
  split at escaped
  · rename_i letter named
    obtain rfl := Option.some.inj escaped
    have each : ∀ entry ∈ shortEscapes, entry.2 ≠ '\n' ∧ codeLength? entry.2 = none ∧
        escaped? entry.2 = some entry.1 := by decide
    obtain ⟨before, after, entries, -⟩ := List.lookup_eq_some_iff.mp named
    exact Or.inl ⟨letter, rfl, each (code, letter) (by simp [entries])⟩
  · split at escaped
    · cases escaped
    split at escaped
    · rename_i small
      exact Or.inr ⟨'x', 1, by decide, by decide, rfl, small, (Option.some.inj escaped).symm⟩
    split at escaped
    · rename_i small
      exact Or.inr ⟨'u', 3, by decide, by decide, rfl, small, (Option.some.inj escaped).symm⟩
    · have small : code < 16 ^ 8 := Nat.lt_of_lt_of_le bounded (by decide)
      exact Or.inr ⟨'U', 7, by decide, by decide, rfl, small, (Option.some.inj escaped).symm⟩

theorem readDouble_escape {code : Nat} {form : List Char} (bounded : code < codeLimit)
    (escaped : escape? code = some form) (fits : stance.Fits (code :: text))
    (unbroken : rest.head? ≠ some '\n') :
    readDouble stance (form ++ rest) = (readDouble (.line false) rest).map (kept code) := by
  have opened (rest : List Char) : readDouble stance ('\\' :: rest) = readDouble .escape rest := by
    cases stance with
    | line fresh => simp [readDouble]
    | escape =>
        obtain rfl : code = blankCode := by simpa [Stance.Fits] using fits
        cases escaped
    | code left value => exact fits.elim
  rcases escape?_cases bounded escaped with ⟨letter, rfl, notBreak, single, meant⟩ |
    ⟨mark, count, notBreak, notSlash, several, small, rfl⟩
  · simp [opened, readDouble, notBreak, unbroken, single, meant]
  · simp [opened, readDouble, notBreak, notSlash, several, readDouble_code,
      Nat.mod_eq_of_lt small]

theorem head?_doubleFrom (column : Nat) (first afterEscape : Bool)
    (bounded : ∀ code ∈ text, code < codeLimit) (rest : List Char) :
    (doubleFrom indent column first afterEscape text ++ '"' :: rest).head? ≠ some '\n' := by
  cases text with
  | nil => simp [doubleFrom]
  | cons code text =>
      rw [doubleFrom]
      dsimp only
      split
      · rename_i form escaped
        rcases escape?_cases (bounded code List.mem_cons_self) escaped with
          ⟨letter, rfl, -⟩ | ⟨mark, count, -, -, -, -, rfl⟩ <;> split <;> simp
      · rename_i plain
        obtain ⟨c, written, -, -, -, visible⟩ := exists_char_of_escape? plain
        split
        · simp [doubleFold]
        · simpa [written] using visible

/-- What stands between double quotes is read back, wherever it was folded. -/
theorem readDouble_doubleFrom (bounded : ∀ code ∈ text, code < codeLimit)
    (fits : stance.Fits text) (column : Nat) (first afterEscape : Bool) (rest : List Char) :
    readDouble stance (doubleFrom indent column first afterEscape text ++ '"' :: rest) =
      some (text, rest) := by
  induction text generalizing stance column first afterEscape with
  | nil =>
      cases stance with
      | line fresh => simp [doubleFrom, readDouble]
      | escape => cases fits
      | code left value => exact fits.elim
  | cons code text ih =>
      rw [List.forall_mem_cons] at bounded
      rw [doubleFrom]
      dsimp only
      split
      · rename_i form escaped
        split
        · have unbroken : (doubleFold indent text.head? ++
              (doubleFrom indent (foldedColumn indent text.head?) false true text ++
                '"' :: rest)).head? ≠ some '\n' := by simp [doubleFold]
          rw [List.append_assoc, List.append_assoc,
            readDouble_escape bounded.1 escaped fits unbroken,
            readDouble_fold (Stance.fits_line text), ih bounded.2 (Stance.fits_behind text)]
          rfl
        · rw [List.append_assoc,
            readDouble_escape bounded.1 escaped fits (head?_doubleFrom _ _ _ bounded.2 _),
            ih bounded.2 (Stance.fits_line text)]
          rfl
      · rename_i plain
        split
        -- a blank behind a fold is marked, and then stands behind a backslash
        · have marked : (Stance.behind (some code)).Fits (code :: text) :=
            Stance.fits_behind (code :: text)
          rw [List.append_assoc, readDouble_fold fits, List.cons_append,
            readDouble_cons plain marked, ih bounded.2 (Stance.fits_line text)]
          rfl
        · rw [List.cons_append, readDouble_cons plain fits, ih bounded.2 (Stance.fits_line text)]
          rfl

end Double

section Scalar

/-- The plain texts that stand for a value of their own, numerals apart. -/
def plainWords : List (List Char × Json) :=
  [(['[', ']'], .arr []), (['\x7b', '\x7d'], .obj []), ("null".toList, .null),
    ("true".toList, .bool true), ("false".toList, .bool false)]

def plainValue (text : List Char) : Json :=
  (plainWords.lookup text).getD
    (if readsAsText text then .str (String.ofList text)
    else ((Json.readNumber text).map Prod.fst).getD .null)

/-- Reads a scalar whose later lines start at the given column, or beyond. -/
def readScalar (indent : Nat) : List Char → Option (Json × List Char)
  | [] => none
  | c :: rest =>
      if c = '\x27' then (readSingle .none rest).map (Prod.map (.str ∘ String.ofList) id)
      else if c = '"' then do
        let (points, after) ← readDouble (.line false) rest
        return (.string (← Text.ofPoints? points), after)
      else some ((readPlain indent false (c :: rest)).map plainValue id)

variable {text : List Char}

theorem isIndicator_of_startsAsStructure {c : Char}
    (harmless : startsAsStructure (c :: text) = false) : isIndicator c = false := by
  rw [startsAsStructure.eq_def] at harmless
  split at harmless
  · cases harmless
  · cases harmless
  · simp_all
  · simp_all

/-- A text that is written as it is has a first character, which is neither a blank nor a quote. -/
theorem exists_eq_cons_of_allowsPlain (plain : allowsPlain text = true) :
    ∃ c later, text = c :: later ∧ c ≠ ' ' ∧ isIndicator c = false := by
  simp only [allowsPlain, Bool.and_eq_true, Bool.not_eq_true'] at plain
  cases text with
  | nil => exact absurd plain.2 (by decide)
  | cons c later =>
      refine ⟨c, later, rfl, ?_, isIndicator_of_startsAsStructure plain.1.1.2⟩
      rintro rfl
      simp [gapAtEnds, isGap] at plain

/-- The words for other values are not what such a property is about. -/
theorem lookup_plainWords (such : List Char → Bool)
    (each : ∀ entry ∈ plainWords, such entry.1 = false) (holds : such text = true) :
    plainWords.lookup text = none := by
  rw [List.lookup_eq_none_iff]
  intro entry member
  simp only [bne_iff_ne]
  rintro rfl
  simp [each entry member] at holds

theorem plainValue_text (plain : allowsPlain text = true) :
    plainValue text = .str (String.ofList text) := by
  have reads : readsAsText text = true := by simp_all [allowsPlain]
  rw [plainValue, lookup_plainWords allowsPlain (by decide) plain, Option.getD_none, if_pos reads]

theorem plainValue_intDigits (value : Int) : plainValue (Digits.intDigits value) = .int value := by
  have read := Json.readNumber_int value Json.endsNumeral_nil
  rw [List.append_nil] at read
  have other := lookup_plainWords (fun word => (Json.readNumber word).isSome) (by decide)
    (by simp [read] : (Json.readNumber (Digits.intDigits value)).isSome = true)
  rw [plainValue, other, readsAsText_intDigits, read]
  rfl

theorem readScalar_plain {c : Char} (notSingle : c ≠ '\x27') (notDouble : c ≠ '"')
    (later : List Char) : readScalar indent (c :: later) =
      some ((readPlain indent false (c :: later)).map plainValue id) := by
  rw [readScalar, if_neg notSingle, if_neg notDouble]

theorem readScalar_word (closes : Closes indent rest) {c : Char} {later : List Char}
    (notSingle : c ≠ '\x27') (notDouble : c ≠ '"') (single : '\n' ∉ c :: later) :
    readScalar indent (c :: later ++ rest) = some (plainValue (c :: later), rest) := by
  rw [List.cons_append, readScalar_plain notSingle notDouble, ← List.cons_append,
    readPlain_word closes single]
  rfl

theorem readScalar_intDigits (closes : Closes indent rest) (value : Int) :
    readScalar indent (Digits.intDigits value ++ rest) = some (.int value, rest) := by
  have plain := Json.isPlain_intDigits value
  have valued := plainValue_intDigits value
  have single : '\n' ∉ Digits.intDigits value := fun member => absurd (plain _ member) (by decide)
  obtain ⟨first, others, written, starts⟩ := Json.exists_intDigits_eq_cons value
  rw [written] at single valued ⊢
  have notQuote : first ≠ '\x27' ∧ first ≠ '"' := by
    constructor <;> rintro rfl <;> rcases starts with starts | starts <;> cases starts
  rw [readScalar_word closes notQuote.1 notQuote.2 single, valued]

theorem readScalar_doubleQuoted (column : Nat) (text : Text) (rest : List Char) :
    readScalar indent (doubleQuoted indent column text ++ rest) = some (.string text, rest) := by
  rw [doubleQuoted, List.cons_append, readScalar, if_neg (by decide), if_pos rfl,
    List.append_assoc, List.singleton_append,
    readDouble_doubleFrom (fun _ => Text.lt_of_mem_points) (Stance.fits_line text.points)]
  simp [Text.ofPoints?_points]

/-- A text is read back from its written form, whichever form it has and wherever it is folded. -/
theorem readScalar_textScalar (positive : 0 < indent) (closes : Closes indent rest)
    (column : Nat) (text : Text) :
    readScalar indent (textScalar indent column text ++ rest) = some (.string text, rest) := by
  cases text with
  | loose text => exact readScalar_doubleQuoted column (.loose text) rest
  | plain string =>
      have same : Json.string (.plain string) = .str (String.ofList string.toList) := by
        rw [String.ofList_toList]
      rw [same]
      unfold textScalar
      dsimp only
      split
      · rename_i plain
        generalize string.toList = text at plain ⊢
        have single : '\n' ∉ text := by simp_all [allowsPlain]
        have read := readPlain_plainFrom closes single column false false Bool.noConfusion
        have valued := plainValue_text plain
        obtain ⟨c, later, rfl, inked, harmless⟩ := exists_eq_cons_of_allowsPlain plain
        have notQuote : c ≠ '\x27' ∧ c ≠ '"' := by
          constructor <;> rintro rfl <;> cases harmless
        rw [plainFrom, if_neg inked, List.cons_append] at read ⊢
        rw [readScalar_plain notQuote.1 notQuote.2, read, Prod.map_apply, valued]
        rfl
      split
      · rename_i notPlain single
        simp only [allowsSingle, Bool.and_eq_true, Bool.not_eq_true'] at single
        have ends : rest.head? ≠ some '\x27' := by cases closes <;> simp
        have apart : Seam.none.Fits none string.toList := nofun
        rw [List.cons_append, readScalar, if_pos rfl, List.append_assoc, List.singleton_append,
          readSingle_singleFrom positive ends apart single.1.2 single.2]
        rfl
      · rw [← same, readScalar_doubleQuoted]

end Scalar

end Bindery.Yaml
