import Bindery.Character
import Bindery.Number.Shortest
import Bindery.Value

set_option autoImplicit false

namespace Bindery.Literal

def point (quote : Char) (code : Nat) : List Char :=
  if code = quote.toNat ∨ code = '\\'.toNat then ['\\', Char.ofNat code]
  else if code = '\n'.toNat then ['\\', 'n']
  else if code = '\r'.toNat then ['\\', 'r']
  else if code = '\t'.toNat then ['\\', 't']
  else if Character.isPrintable code then [Char.ofNat code]
  else if code < 0x100 then '\\' :: 'x' :: Digits.hexDigits 2 code
  else if code < 0x10000 then '\\' :: 'u' :: Digits.hexDigits 4 code
  else '\\' :: 'U' :: Digits.hexDigits 8 code

/-- The quote that needs no escape, if there is one; else a single one. -/
def quoteFor (codes : List Nat) : Char :=
  if codes.contains '\x27'.toNat && !codes.contains '"'.toNat then '"' else '\x27'

def text (content : Text) : List Char :=
  let quote := quoteFor content.points
  quote :: (content.points.flatMap (point quote) ++ [quote])

def octets (content : List UInt8) : List Char :=
  let codes := content.map UInt8.toNat
  let quote := quoteFor codes
  let form (code : Nat) : List Char :=
    if 0x80 ≤ code then '\\' :: 'x' :: Digits.hexDigits 2 code else point quote code
  'b' :: quote :: (codes.flatMap form ++ [quote])

def between (opening : String) (inside : List Char) (closing : String) : List Char :=
  opening.toList ++ inside ++ closing.toList

def loneComma {F : Type} : List (Value F) → List Char
  | [_] => [',']
  | _ => []

mutual

/-- The literal text of a value. An object that has none is named by its type. -/
def value {F : Type} : Value F → List Char
  | .null => "None".toList
  | .bool content => if content then "True".toList else "False".toList
  | .int content => Digits.intDigits content
  | .float content => content.text.toList
  | .str content => text content
  | .list items => between "[" (values items) "]"
  | .tuple items => between "(" (values items ++ loneComma items) ")"
  | .bundle components =>
      between "CapturedTuple(" (values components ++ loneComma components) ")"
  | .dictionary items => '\x7b' :: (entries items ++ ['\x7d'])
  | .octets content => octets content
  | .buffer content => between "bytearray(" (octets content) ")"
  | .unbound => "<unbound>".toList
  | other => between "<" other.typeName.text.toList ">"

def values {F : Type} : List (Value F) → List Char
  | [] => []
  | [item] => value item
  | item :: rest => value item ++ ',' :: ' ' :: values rest

def entries {F : Type} : List (Value F × Value F) → List Char
  | [] => []
  | [(key, item)] => value key ++ ':' :: ' ' :: value item
  | (key, item) :: rest => value key ++ ':' :: ' ' :: (value item ++ ',' :: ' ' :: entries rest)

end

end Bindery.Literal
