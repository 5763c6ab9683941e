import Bindery.Digits
import Bindery.Json

set_option autoImplicit false

namespace Bindery.Json

open Digits

def unitEscape (unit : Nat) : List Char :=
  '\\' :: 'u' :: hexDigits 4 unit

/-- The 16-bit units of a code point: itself, or a surrogate pair. -/
def units (code : Nat) : List Nat :=
  if code < 0x10000 then [code]
  else [0xD800 + (code - 0x10000) / 1024, 0xDC00 + (code - 0x10000) % 1024]

def escape (code : Nat) : List Char :=
  if code = '"'.toNat then ['\\', '"']
  else if code = '\\'.toNat then ['\\', '\\']
  else if code = '\n'.toNat then ['\\', 'n']
  else if code = '\r'.toNat then ['\\', 'r']
  else if code = '\t'.toNat then ['\\', 't']
  else if code = '\x08'.toNat then ['\\', 'b']
  else if code = '\x0c'.toNat then ['\\', 'f']
  else if 0x20 ≤ code ∧ code ≤ 0x7E then [Char.ofNat code]
  else (units code).flatMap unitEscape

def quoted (text : Text) : List Char :=
  '"' :: (text.points.flatMap escape ++ ['"'])

mutual

def chars : Json → List Char
  | .null => ['n', 'u', 'l', 'l']
  | .bool true => ['t', 'r', 'u', 'e']
  | .bool false => ['f', 'a', 'l', 's', 'e']
  | .int value => intDigits value
  | .decimal mantissa exponent => intDigits mantissa ++ 'e' :: intDigits exponent
  | .string text => quoted text
  | .arr items => '[' :: (charsItems items ++ [']'])
  | .obj fields => '\x7b' :: (charsFields fields ++ ['\x7d'])

def charsItems : List Json → List Char
  | [] => []
  | [item] => chars item
  | item :: rest => chars item ++ ',' :: ' ' :: charsItems rest

def charsFields : List (String × Json) → List Char
  | [] => []
  | [(name, value)] => quoted (.plain name) ++ ':' :: ' ' :: chars value
  | (name, value) :: rest =>
      quoted (.plain name) ++ ':' :: ' ' :: (chars value ++ ',' :: ' ' :: charsFields rest)

end

def text (value : Json) : String :=
  String.ofList value.chars

/-- Two values are alike when their texts are the same. -/
def alike (left right : Json) : Bool :=
  left.text == right.text

end Bindery.Json
