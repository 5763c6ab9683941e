import Bindery.Character
import Bindery.Digits
import Bindery.Number.Binary64

set_option autoImplicit false

namespace Bindery.Binary64

/-- The plain digit for a decimal digit of any script, and any other character as it is. -/
def plainDigit (c : Char) : Char :=
  match Character.digitValue? c with
  | some value => Char.ofNat (48 + value)
  | none => c

/-- Digits read off the front. An underscore counts only between two digits. -/
def takeDigits : List Char → List Char × List Char
  | [] => ([], [])
  | c :: '_' :: next :: rest =>
      if c.isDigit && next.isDigit then
        let (digits, after) := takeDigits (next :: rest)
        (c :: digits, after)
      else if c.isDigit then ([c], '_' :: next :: rest)
      else ([], c :: '_' :: next :: rest)
  | c :: rest =>
      if c.isDigit then
        let (digits, after) := takeDigits rest
        (c :: digits, after)
      else ([], c :: rest)

def takeSign : List Char → Bool × List Char
  | '-' :: rest => (true, rest)
  | '+' :: rest => (false, rest)
  | text => (false, text)

/-- The exponent of a numeral, which must end the text. -/
def exponent? : List Char → Option Int
  | [] => some 0
  | mark :: rest =>
      if mark = 'e' ∨ mark = 'E' then
        let (negative, magnitude) := takeSign rest
        match takeDigits magnitude with
        | ([], _) => none
        | (digits, []) =>
            let value : Int := Digits.decimalValue digits
            some (if negative then -value else value)
        | _ => none
      else none

def magnitude? (negative : Bool) (text : List Char) : Option Binary64 :=
  let (whole, afterWhole) := takeDigits text
  let (fraction, afterFraction) :=
    match afterWhole with
    | '.' :: rest => takeDigits rest
    | rest => ([], rest)
  if whole.isEmpty && fraction.isEmpty then none
  else do
    let exponent ← exponent? afterFraction
    return ofDecimal negative (Digits.decimalValue (whole ++ fraction)) (exponent - fraction.length)

/-- The double that a numeral names. The word for no number gives one with the given payload. -/
def ofNumeral? (payload : Nat) (text : String) : Option Binary64 :=
  let (negative, magnitude) := takeSign ((Character.trimBlanks text.toList).map plainDigit)
  let word := String.ofList (magnitude.map Char.toLower)
  if word = "inf" ∨ word = "infinity" then some (.infinite negative)
  else if word = "nan" then some (.nan payload)
  else magnitude? negative magnitude

end Bindery.Binary64
