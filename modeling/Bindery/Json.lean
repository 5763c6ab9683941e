import Bindery.Text

set_option autoImplicit false

namespace Bindery

/-- A JSON value. A numeral with a fraction or an exponent is `mantissa * 10 ^ exponent`. An object
keeps its fields in the order in which they were put there. -/
inductive Json where
  | null
  | bool (value : Bool)
  | int (value : Int)
  | decimal (mantissa exponent : Int)
  | string (text : Text)
  | arr (items : List Json)
  | obj (fields : List (String × Json))
  deriving Inhabited

namespace Json

@[match_pattern]
abbrev str (word : String) : Json :=
  .string (.plain word)

def tagged (label : String) (value : Json) : Json :=
  .obj [(label, value)]

/-- The value of a field. Of several fields with one name the last counts. -/
def field? (name : String) : Json → Option Json
  | .obj fields => fields.reverse.lookup name
  | _ => none

/-- The value of a field that may be left out, `null` standing for its absence. -/
def fieldD (name : String) (value : Json) : Json :=
  (value.field? name).getD .null

def isNull : Json → Bool
  | .null => true
  | _ => false

def text? : Json → Option Text
  | .string text => some text
  | _ => none

def str? : Json → Option String
  | .str word => some word
  | _ => none

def int? : Json → Option Int
  | .int value => some value
  | _ => none

def arr? : Json → Option (List Json)
  | .arr items => some items
  | _ => none

def obj? : Json → Option (List (String × Json))
  | .obj fields => some fields
  | _ => none

mutual

def depth : Json → Nat
  | .arr items => depthItems items + 1
  | .obj fields => depthFields fields + 1
  | _ => 1

def depthItems : List Json → Nat
  | [] => 0
  | item :: rest => max (depth item) (depthItems rest)

def depthFields : List (String × Json) → Nat
  | [] => 0
  | (_, value) :: rest => max (depth value) (depthFields rest)

end

end Json

end Bindery
