import Bindery.Yaml.Pattern

set_option autoImplicit false

namespace Bindery.Yaml

namespace Resolution

open Pattern

def digit : Pattern := range '0' '9'

/-- A digit or the underscore that may group digits. -/
def grouped : Pattern := .either digit (oneOf ['_'])

def sign : Pattern := optional (oneOf ['-', '+'])

def exponent : Pattern :=
  optional (all [oneOf ['e', 'E'], oneOf ['-', '+'], some digit])

def sixtieths : Pattern :=
  some (all [oneOf [':'], optional (range '0' '5'), digit])

/-- The words for null. The empty text is one of them. -/
def nullWords : List String := ["", "~", "null", "Null", "NULL"]

def truthWords : List String :=
  ["yes", "Yes", "YES", "no", "No", "NO", "true", "True", "TRUE", "false", "False", "FALSE",
    "on", "On", "ON", "off", "Off", "OFF"]

/-- The marks for merging, for default values and for other properties. -/
def markWords : List String := ["<<", "=", "!", "&", "*"]

/-- Binary, octal, decimal, hexadecimal and base-sixty integers. -/
def integer : Pattern :=
  all [sign, any
    [.sequence (literal "0b") (some (oneOf ['0', '1', '_'])),
      .sequence (literal "0") (some (.either (range '0' '7') (oneOf ['_']))),
      literal "0",
      .sequence (range '1' '9') (.many grouped),
      .sequence (literal "0x")
        (some (any [digit, range 'a' 'f', range 'A' 'F', oneOf ['_']])),
      all [range '1' '9', .many grouped, sixtieths]]]

/-- Numbers with a point, infinities, and the mark of no number. -/
def real : Pattern :=
  any
    [all [sign, digit, .many grouped, oneOf ['.'], .many grouped, exponent],
      all [oneOf ['.'], digit, .many grouped, exponent],
      all [sign, digit, .many grouped, sixtieths, oneOf ['.'], .many grouped],
      all [sign, any [literal ".inf", literal ".Inf", literal ".INF"]],
      any [literal ".nan", literal ".NaN", literal ".NAN"]]

def date : Pattern :=
  all [digit, digit, digit, digit, oneOf ['-'], digit, digit, oneOf ['-'], digit, digit]

def oneOrTwoDigits : Pattern := .sequence digit (optional digit)

def zone : Pattern :=
  optional (all
    [.many (oneOf [' ', '\t']),
      .either (oneOf ['Z'])
        (all [oneOf ['-', '+'], oneOrTwoDigits, optional (all [oneOf [':'], digit, digit])])])

def instant : Pattern :=
  all
    [digit, digit, digit, digit, oneOf ['-'], oneOrTwoDigits, oneOf ['-'], oneOrTwoDigits,
      .either (oneOf ['T', 't']) (some (oneOf [' ', '\t'])),
      oneOrTwoDigits, oneOf [':'], digit, digit, oneOf [':'], digit, digit,
      optional (.sequence (oneOf ['.']) (.many digit)), zone]

end Resolution

def readsAsText (text : List Char) : Bool :=
  let word := String.ofList text
  !(Resolution.nullWords.contains word || Resolution.truthWords.contains word ||
    Resolution.markWords.contains word || Resolution.integer.accepts text ||
    Resolution.real.accepts text || Resolution.date.accepts text ||
    Resolution.instant.accepts text)

end Bindery.Yaml
