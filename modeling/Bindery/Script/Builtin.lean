import Bindery.Number.Numeral
import Bindery.Literal
import Bindery.Script.Term

set_option autoImplicit false

namespace Bindery.Script

variable {F : Type}

def Constant.toValue : Constant → Value F
  | .null => .null
  | .bool value => .bool value
  | .int value => .int value
  | .str text => .str text

def twoInts (form : String) (left right : Value F) : Except Error (Int × Int) :=
  match left, right with
  | .int first, .int second => .ok (first, second)
  | _, _ => .error (.fault (.needs form .ints))

def listOrTuple (form : String) (value : Value F) : Except Error (List (Value F)) :=
  match value.items? with
  | some items => .ok items
  | none => .error (.fault (.needs form .listOrTuple))

/-- Division rounds down, and the remainder has the sign of the divisor. -/
def Arithmetic.apply (operator : Arithmetic) (left right : Value F) :
    Except Error (Value F) := do
  let (first, second) ← twoInts operator.text left right
  match operator with
  | .add => return .int (first + second)
  | .subtract => return .int (first - second)
  | .multiply => return .int (first * second)
  | .quotient =>
      if second = 0 then throw (.fault .divisionByZero) else return .int (first.fdiv second)
  | .remainder =>
      if second = 0 then throw (.fault .divisionByZero) else return .int (first.fmod second)
  | .less => return .bool (first < second)
  | .lessOrEqual => return .bool (first ≤ second)
  | .greater => return .bool (first > second)
  | .greaterOrEqual => return .bool (first ≥ second)

def range (first last : Value F) : Except Error (Value F) := do
  let (low, high) ← twoInts "range" first last
  return .list ((List.range (high - low).toNat).map fun (offset : Nat) => .int (low + offset))

def length (value : Value F) : Except Error (Value F) := do
  return .int (← listOrTuple "len" value).length

def sum (value : Value F) : Except Error (Value F) := do
  let items ← listOrTuple "sum" value
  match items.mapM Value.int? with
  | some numbers => return .int (numbers.foldl (· + ·) 0)
  | none => throw (.fault (.needs "sum" .ints))

/-- The item at a position counted from zero. A negative position is out of range whatever the
value is. -/
def nth (value index : Value F) : Except Error (Value F) := do
  match index with
  | .int position => do
      if position < 0 then throw (.fault .indexOutOfRange)
      else
        let items ← listOrTuple "nth" value
        match items[position.toNat]? with
        | some item => return item
        | none => throw (.fault .indexOutOfRange)
  | _ => throw (.fault (.needs "nth" .ints))

/-- The number of positions in each direction that a sequence can be asked for. -/
def positionBound : Int := Int.pow 2 63

/-- The step at a position, which counts from the end when it is negative. -/
def stepAt (refs : List StepRef) (position : Int) : Except Error StepRef :=
  let place := if position < 0 then position + refs.length else position
  if position < -positionBound ∨ positionBound ≤ position then .error .oversizedPosition
  else if place < 0 then .error .noSuchStep
  else
    match refs[place.toNat]? with
    | some ref => .ok ref
    | none => .error .noSuchStep

def join (left right : Value F) : Except Error (Value F) :=
  match left, right with
  | .str first, .str second => .ok (.str (first.append second))
  | .list first, .list second => .ok (.list (first ++ second))
  | _, _ => .error (.fault (.needs "cat" .stringsOrLists))

def Collection.build : Collection → List (Value F) → Value F
  | .list, items => .list items
  | .tuple, items => .tuple items
  | .bundle, items => .bundle items

def ListKind.build (kind : ListKind) (value : Value F) : Except Error (Value F) := do
  let items ← listOrTuple kind.text value
  match kind with
  | .plain => return .listMonad none false items
  | .traced => return .listMonad none true items
  | .deferred => return .deferred none items []

/-- The octets that pairs of hexadecimal digits name, or the position of the first character that
belongs to no pair. Blanks may stand between pairs. -/
def octetsFrom (position : Nat) : List Char → Except Nat (List UInt8)
  | [] => .ok []
  | high :: rest =>
      if Character.isBlank high then octetsFrom (position + 1) rest
      else
        match Digits.hexValue? high, rest with
        | none, _ => .error position
        | some _, [] => .error (position + 1)
        | some first, low :: others =>
            match Digits.hexValue? low with
            | none => .error (position + 1)
            | some second => do
                let octets ← octetsFrom (position + 2) others
                return (16 * first + second).toUInt8 :: octets

/-- The octets that a text of hexadecimal digits and blanks names. A character beyond ASCII is
refused before all others. -/
def octetsOf (text : List Char) : Except Nat (List UInt8) :=
  match text.findIdx? fun c => 0x80 ≤ c.toNat with
  | some position => .error position
  | none => octetsFrom 0 text

def octets (hex : String) : Except Error (List UInt8) :=
  match octetsOf hex.toList with
  | .ok octets => .ok octets
  | .error position =>
      .error (.raised .value
        ("non-hexadecimal number found in fromhex() arg at position " ++ toString position))

/-- The double that a numeral names, with the given payload when it is the word for no number. -/
def float (payload : Nat) (numeral : String) : Except Error (Value F) :=
  match Binary64.ofNumeral? payload numeral with
  | some value => .ok (.float value)
  | none =>
      .error (.raised .value
        ("could not convert string to float: " ++
          String.ofList (Literal.text (.plain numeral))))

mutual

/-- The type that keeps a value from being a key: that of a list, a dictionary or a mutable octet
string, in the value itself or in a tuple. -/
def badKey? : Value F → Option TypeName
  | .list _ => some .list
  | .dictionary _ => some .dictionary
  | .buffer _ => some .buffer
  | .tuple items => badItemType? items
  | .bundle components => badItemType? components
  | _ => none

def badItemType? : List (Value F) → Option TypeName
  | [] => none
  | item :: rest => (badKey? item).or (badItemType? rest)

end

/-- A dictionary with one more entry. A key that is there keeps its place. -/
def insertEntry (key value : Value F) : List (Value F × Value F) → List (Value F × Value F)
  | [] => [(key, value)]
  | (old, content) :: rest =>
      if old.likeness.same key.likeness then (old, value) :: rest
      else (old, content) :: insertEntry key value rest

/-- A dictionary with one more entry, or the error that its key cannot be one. -/
def addEntry (entries : List (Value F × Value F)) (key value : Value F) :
    Except Error (List (Value F × Value F)) :=
  match badKey? key with
  | some type => .error (.badKey type)
  | none => .ok (insertEntry key value entries)

end Bindery.Script
