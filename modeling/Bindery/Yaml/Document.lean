import Bindery.Json.Text
import Bindery.Yaml.Scalar

set_option autoImplicit false

namespace Bindery.Yaml

/-- Where a value stands: after a key of the given length, or after a dash. -/
inductive Place where
  | key (length : Nat)
  | dash

/-- The column after the key's colon or the dash. -/
def Place.column (indent : Nat) : Place → Nat
  | .key length => indent + length + 1
  | .dash => indent + 1

def Place.itemIndent (indent : Nat) : Place → Nat
  | .key _ => indent
  | .dash => indent + 2

/-- What comes before the first entry of a container: a new line after a key, a blank after a
dash. -/
def Place.opening (indent : Nat) : Place → List Char
  | .key _ => newLine indent
  | .dash => [' ']

mutual

/-- A value in a container at column `indent`, with what separates it from its key or dash. -/
def node (indent : Nat) (place : Place) : Json → List Char
  | .null => " null".toList
  | .bool value => if value then " true".toList else " false".toList
  | .int value => ' ' :: Digits.intDigits value
  | .decimal mantissa exponent => ' ' :: Json.chars (.decimal mantissa exponent)
  | .string text => ' ' :: textScalar (indent + 2) (place.column indent + 1) text
  | .arr [] => " []".toList
  | .arr (item :: rest) =>
      let column := place.itemIndent indent
      place.opening column ++ '-' :: node column .dash item ++ items column rest
  | .obj [] => [' ', '\x7b', '\x7d']
  | .obj ((name, value) :: rest) =>
      let column := indent + 2
      place.opening column ++ name.toList ++ ':' :: node column (.key name.length) value ++
        fields column rest

def items (indent : Nat) : List Json → List Char
  | [] => []
  | item :: rest => newLine indent ++ '-' :: node indent .dash item ++ items indent rest

/-- The entries of a mapping after the first. Their names are plain words. -/
def fields (indent : Nat) : List (String × Json) → List Char
  | [] => []
  | (name, value) :: rest =>
      newLine indent ++ name.toList ++ ':' :: node indent (.key name.length) value ++
        fields indent rest

end

def document : List (String × Json) → List Char
  | [] => ['\x7b', '\x7d', '\n']
  | (name, value) :: rest =>
      name.toList ++ ':' :: node 0 (.key name.length) value ++ fields 0 rest ++ ['\n']

end Bindery.Yaml
