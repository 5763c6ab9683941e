import Bindery.Digits
import Bindery.Text
import Bindery.Yaml.Resolution

set_option autoImplicit false

namespace Bindery.Yaml

/-- The column after which a line is folded. -/
def lineWidth : Nat := 80

def newLine (indent : Nat) : List Char :=
  '\n' :: List.replicate indent ' '

/-- A printable ASCII character or a line break. All others need an escape. -/
def isOrdinary (c : Char) : Bool :=
  c = '\n' || (' ' ≤ c && c ≤ '~')

def isGap (c : Char) : Bool :=
  c = ' ' || c = '\n'

/-- The characters that mean something at the start of a plain text. -/
def isIndicator (c : Char) : Bool :=
  ['#', ',', '[', ']', '\x7b', '\x7d', '&', '*', '!', '|', '>', '\x27', '"', '%', '@',
    '\x60'].contains c

def gapFollows (rest : List Char) : Bool :=
  rest.head?.all isGap

/-- Whether the start of a text would be taken for structure. -/
def startsAsStructure : List Char → Bool
  | '-' :: '-' :: '-' :: _ => true
  | '.' :: '.' :: '.' :: _ => true
  | c :: rest =>
      isIndicator c || ((c = '?' || c = ':' || c = '-') && gapFollows rest)
  | [] => false

/-- Whether a later part of a text would be taken for the end of a key or for a comment. -/
def holdsStructure : List Char → Bool
  | before :: c :: rest =>
      (c = ':' && gapFollows rest) || (c = '#' && isGap before) || holdsStructure (c :: rest)
  | _ => false

def hasPair (first second : Char) : List Char → Bool
  | c :: next :: rest => (c = first && next = second) || hasPair first second (next :: rest)
  | _ => false

def gapAtEnds (text : List Char) : Bool :=
  text.head?.any isGap || text.getLast?.any isGap

def allowsPlain (text : List Char) : Bool :=
  text.all isOrdinary && !text.contains '\n' && !gapAtEnds text &&
    !startsAsStructure text && !holdsStructure text && readsAsText text

def allowsSingle (text : List Char) : Bool :=
  text.all isOrdinary && !hasPair ' ' '\n' text && !hasPair '\n' ' ' text

/-- A plain text from a column on. A single blank beyond the width becomes a new line. -/
def plainFrom (indent column : Nat) (afterBlank : Bool) : List Char → List Char
  | [] => []
  | c :: rest =>
      if c = ' ' then
        if !afterBlank && lineWidth < column && rest.head?.any (· ≠ ' ') then
          newLine indent ++ plainFrom indent indent true rest
        else ' ' :: plainFrom indent (column + 1) true rest
      else c :: plainFrom indent (column + 1) false rest

/-- The inside of single quotes from a column on, after a given character. A quote is doubled, a
run of line breaks has one more break, and a single blank beyond the width becomes a new line. -/
def singleFrom (indent column : Nat) (before : Option Char) : List Char → List Char
  | [] => []
  | c :: rest =>
      if c = ' ' then
        if before.any (· ≠ ' ') && lineWidth < column && rest.head?.any (· ≠ ' ') then
          newLine indent ++ singleFrom indent indent (some c) rest
        else ' ' :: singleFrom indent (column + 1) (some c) rest
      else if c = '\n' then
        let opening := if before = some '\n' then [] else ['\n']
        if rest.head? = some '\n' then
          opening ++ '\n' :: singleFrom indent 0 (some c) rest
        else opening ++ newLine indent ++ singleFrom indent indent (some c) rest
      else if c = '\x27' then
        '\x27' :: '\x27' :: singleFrom indent (column + 2) (some c) rest
      else c :: singleFrom indent (column + 1) (some c) rest

def upperDigits (count value : Nat) : List Char :=
  (Digits.hexDigits count value).map Char.toUpper

def shortEscapes : List (Nat × Char) :=
  [(0x00, '0'), (0x07, 'a'), (0x08, 'b'), (0x09, 't'), (0x0A, 'n'), (0x0B, 'v'), (0x0C, 'f'),
    (0x0D, 'r'), (0x1B, 'e'), (0x22, '"'), (0x5C, '\\'), (0x85, 'N'), (0xA0, '_'), (0x2028, 'L'),
    (0x2029, 'P')]

/-- The form of a code point between double quotes, if it cannot stand for itself. -/
def escape? (code : Nat) : Option (List Char) :=
  match shortEscapes.lookup code with
  | some letter => some ['\\', letter]
  | none =>
      if 0x20 ≤ code ∧ code ≤ 0x7E then none
      else if code < 0x100 then some ('\\' :: 'x' :: upperDigits 2 code)
      else if code < 0x10000 then some ('\\' :: 'u' :: upperDigits 4 code)
      else some ('\\' :: 'U' :: upperDigits 8 code)

def blankCode : Nat := 0x20

/-- A fold between double quotes, with a mark when the next line would start with a blank. -/
def doubleFold (indent : Nat) (next : Option Nat) : List Char :=
  '\\' :: newLine indent ++ if next = some blankCode then ['\\'] else []

def foldedColumn (indent : Nat) (next : Option Nat) : Nat :=
  if next = some blankCode then indent + 1 else indent

/-- The inside of double quotes from a column on. A fold comes before a blank, or before or after
the characters that follow an escape, but never next to a quote. -/
def doubleFrom (indent column : Nat) (first afterEscape : Bool) : List Nat → List Char
  | [] => []
  | code :: rest =>
      let inner := !first && !rest.isEmpty
      match escape? code with
      | some form =>
          let after := column + form.length
          if inner && lineWidth + 1 < after then
            form ++ doubleFold indent rest.head? ++
              doubleFrom indent (foldedColumn indent rest.head?) false true rest
          else form ++ doubleFrom indent after false true rest
      | none =>
          if inner && (code = blankCode || afterEscape) && lineWidth < column then
            doubleFold indent (some code) ++ Char.ofNat code ::
              doubleFrom indent (foldedColumn indent (some code) + 1) false false rest
          else Char.ofNat code :: doubleFrom indent (column + 1) false false rest

def doubleQuoted (indent column : Nat) (text : Text) : List Char :=
  '"' :: (doubleFrom indent (column + 1) true false text.points ++ ['"'])

/-- A text in its written form: plain where it is read back as text, between single quotes where it
holds printable ASCII and line breaks only, and with escapes elsewhere. It starts at `column`, and
its folded lines at `indent`. -/
def textScalar (indent column : Nat) : Text → List Char
  | .plain string =>
      let text := string.toList
      if allowsPlain text then plainFrom indent column false text
      else if allowsSingle text then
        '\x27' :: (singleFrom indent (column + 1) none text ++ ['\x27'])
      else doubleQuoted indent column (.plain string)
  | .loose text => doubleQuoted indent column (.loose text)

end Bindery.Yaml
