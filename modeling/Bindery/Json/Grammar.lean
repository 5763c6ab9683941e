import Bindery.Digits
import Bindery.Json

set_option autoImplicit false

namespace Bindery.Json

open Digits

def isBlank (c : Char) : Bool :=
  c = ' ' || c = '\n' || c = '\r' || c = '\t'

def skipBlanks (text : List Char) : List Char :=
  text.dropWhile isBlank

def unitValue? (a b c d : Char) : Option Nat := do
  let first ← hexValue? a
  let second ← hexValue? b
  let third ← hexValue? c
  let fourth ← hexValue? d
  return 4096 * first + 256 * second + 16 * third + fourth

def escaped? (c : Char) : Option Char :=
  if c = '"' ∨ c = '\\' ∨ c = '/' then some c
  else if c = 'n' then some '\n'
  else if c = 'r' then some '\r'
  else if c = 't' then some '\t'
  else if c = 'b' then some '\x08'
  else if c = 'f' then some '\x0c'
  else none

/-- The code points of a string up to its closing quote, with what follows the quote. An escaped
surrogate still stands alone here. -/
def readCodes : List Char → Option (List Nat × List Char)
  | [] => none
  | '"' :: rest => some ([], rest)
  | '\\' :: 'u' :: a :: b :: c :: d :: rest => do
      let unit ← unitValue? a b c d
      let (codes, after) ← readCodes rest
      return (unit :: codes, after)
  | '\\' :: c :: rest => do
      let named ← escaped? c
      let (codes, after) ← readCodes rest
      return (named.toNat :: codes, after)
  | c :: rest =>
      if c.toNat < 0x20 then none
      else do
        let (codes, after) ← readCodes rest
        return (c.toNat :: codes, after)

/-- The code points of a list in which a high and a low surrogate in a row make one. Any other
surrogate is left as it is. -/
def joinPairs : List Nat → List Nat
  | [] => []
  | [code] => [code]
  | high :: low :: rest =>
      if isHighSurrogate high && isLowSurrogate low then
        (0x10000 + (high - 0xD800) * 1024 + (low - 0xDC00)) :: joinPairs rest
      else high :: joinPairs (low :: rest)

/-- The rest of a string whose opening quote has been read. -/
def readString (text : List Char) : Option (Text × List Char) := do
  let (codes, after) ← readCodes text
  return (← Text.ofPoints? (joinPairs codes), after)

def isDigit (c : Char) : Bool :=
  '0' ≤ c && c ≤ '9'

def readDigits (text : List Char) : Option (List Char × List Char) :=
  match text.takeWhile isDigit with
  | [] => none
  | digits => some (digits, text.dropWhile isDigit)

/-- A numeral without its sign: a leading zero stands alone. -/
def readWhole (text : List Char) : Option (Nat × List Char) := do
  let (digits, after) ← readDigits text
  if digits.head? = some '0' ∧ digits.length ≠ 1 then none
  else return (decimalValue digits, after)

def readFraction : List Char → Option (List Char × List Char)
  | '.' :: rest => readDigits rest
  | text => some ([], text)

def readExponent : List Char → Option (Option Int × List Char)
  | [] => some (none, [])
  | mark :: rest =>
      if mark = 'e' ∨ mark = 'E' then
        match rest with
        | '-' :: digits => do
            let (value, after) ← readDigits digits
            return (some (-(decimalValue value : Int)), after)
        | '+' :: digits => do
            let (value, after) ← readDigits digits
            return (some (decimalValue value : Int), after)
        | digits => do
            let (value, after) ← readDigits digits
            return (some (decimalValue value : Int), after)
      else some (none, mark :: rest)

/-- A numeral without its sign. It is an integer when it has neither fraction nor exponent. -/
def readMagnitude (negative : Bool) (text : List Char) : Option (Json × List Char) := do
  let (whole, afterWhole) ← readWhole text
  let (fraction, afterFraction) ← readFraction afterWhole
  let (exponent, after) ← readExponent afterFraction
  let signed (value : Nat) : Int := if negative then -(value : Int) else value
  if fraction.isEmpty && exponent.isNone then
    return (.int (signed whole), after)
  else
    let mantissa := whole * Nat.pow 10 fraction.length + decimalValue fraction
    return (.decimal (signed mantissa) (exponent.getD 0 - fraction.length), after)

def readNumber : List Char → Option (Json × List Char)
  | '-' :: rest => readMagnitude true rest
  | text => readMagnitude false text

mutual

/-- One value and what follows it. `fuel` bounds the number of tokens. -/
def readValue : Nat → List Char → Option (Json × List Char)
  | 0, _ => none
  | fuel + 1, text =>
      match skipBlanks text with
      | 'n' :: 'u' :: 'l' :: 'l' :: rest => some (.null, rest)
      | 't' :: 'r' :: 'u' :: 'e' :: rest => some (.bool true, rest)
      | 'f' :: 'a' :: 'l' :: 's' :: 'e' :: rest => some (.bool false, rest)
      | '"' :: rest => do
          let (content, after) ← readString rest
          return (.string content, after)
      | '[' :: rest =>
          match skipBlanks rest with
          | ']' :: after => some (.arr [], after)
          | items => do
              let (values, after) ← readItems fuel items
              return (.arr values, after)
      | '\x7b' :: rest =>
          match skipBlanks rest with
          | '\x7d' :: after => some (.obj [], after)
          | fields => do
              let (values, after) ← readFields fuel fields
              return (.obj values, after)
      | numeral => readNumber numeral

def readItems : Nat → List Char → Option (List Json × List Char)
  | 0, _ => none
  | fuel + 1, text => do
      let (value, afterValue) ← readValue fuel text
      match skipBlanks afterValue with
      | ',' :: rest => do
          let (values, after) ← readItems fuel rest
          return (value :: values, after)
      | ']' :: after => return ([value], after)
      | _ => none

/-- The fields of a nonempty object, up to its closing brace. They are named by strings of
characters. -/
def readFields : Nat → List Char → Option (List (String × Json) × List Char)
  | 0, _ => none
  | fuel + 1, text => do
      match skipBlanks text with
      | '"' :: opened => do
          let (.plain name, afterName) ← readString opened | none
          match skipBlanks afterName with
          | ':' :: valueText => do
              let (value, afterValue) ← readValue fuel valueText
              match skipBlanks afterValue with
              | ',' :: rest => do
                  let (fields, after) ← readFields fuel rest
                  return ((name, value) :: fields, after)
              | '\x7d' :: after => return ([(name, value)], after)
              | _ => none
          | _ => none
      | _ => none

end

/-- The value of a text. Each nested call of the readers is a character further on, so twice the
length is fuel enough. -/
def parse? (text : List Char) : Option Json := do
  let (value, rest) ← readValue (2 * text.length + 1) text
  if (skipBlanks rest).isEmpty then some value else none

end Bindery.Json
