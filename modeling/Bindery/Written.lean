import Bindery.Number.Shortest
import Bindery.World

set_option autoImplicit false

namespace Bindery

namespace Value

variable {F : Type}

/-- The largest magnitude below which an integer is written as a numeral. -/
def numeralBound : Nat := Nat.pow 2 53

/-- An integer is a numeral when every reader holds it exactly, and a text otherwise. -/
def writtenInt (value : Int) : Json :=
  if value.natAbs < numeralBound then .int value
  else .tagged "int" (.str (String.ofList (Digits.intDigits value)))

def hexText (octets : List UInt8) : String :=
  String.ofList (octets.flatMap fun octet => Digits.hexDigits 2 octet.toNat)

def methodNames (methods : List (Operation × Value F)) : List String :=
  (methods.map (·.1.text)).mergeSort (· ≤ ·)

mutual

/-- The written form of a value, given that of iterators by their number. -/
def writtenWith (iterator : Nat → Json) : Value F → Json
  | .null => .null
  | .bool value => .bool value
  | .int value => writtenInt value
  | .float value => .tagged "float" (.str value.text)
  | .str text => .string text
  | .list items => .arr (writtenItems iterator items)
  | .tuple items => .tagged "tuple" (.arr (writtenItems iterator items))
  | .bundle components => .tagged "captured" (.arr (writtenItems iterator components))
  | .dictionary entries => .tagged "dict" (.arr (writtenEntries iterator entries))
  | .octets content => .tagged "bytes" (.str (hexText content))
  | .buffer content => .tagged "bytearray" (.str (hexText content))
  | .unbound => .tagged "unbound" (.bool true)
  | .iterator number => iterator number
  | .listMonad _ traced items =>
      .tagged (if traced then "Probe" else "ListMonad") (.arr (writtenItems iterator items))
  | .deferred _ _ _ => .tagged "Lazy" (.bool true)
  | .just _ content => .tagged "Just" (writtenWith iterator content)
  | .nothing _ => .tagged "Nothing" (.bool true)
  | .stub _ methods _ => .tagged "Stub" (.arr ((methodNames methods).map .str))

def writtenItems (iterator : Nat → Json) : List (Value F) → List Json
  | [] => []
  | item :: rest => writtenWith iterator item :: writtenItems iterator rest

def writtenEntries (iterator : Nat → Json) : List (Value F × Value F) → List Json
  | [] => []
  | (key, value) :: rest =>
      .arr [writtenWith iterator key, writtenWith iterator value] :: writtenEntries iterator rest

end

theorem writtenItems_eq_map (iterator : Nat → Json) (items : List (Value F)) :
    writtenItems iterator items = items.map (writtenWith iterator) := by
  induction items with
  | nil => rfl
  | cons item rest ih => simp only [writtenItems, ih, List.map_cons]

/-- The written form of an iterator. Its items are older than it is, so `fuel` need not exceed the
number of iterators. -/
def writtenIterator (supplies : List (Supply F)) : Nat → Nat → Json
  | 0, _ => .tagged "iter" (.arr [])
  | fuel + 1, number =>
      let items := (supplies[number]?.map Supply.items).getD []
      .tagged "iter" (.arr (writtenItems (writtenIterator supplies fuel) items))

def written (supplies : List (Supply F)) (value : Value F) : Json :=
  value.writtenWith (writtenIterator supplies supplies.length)

end Value

namespace World

variable {F σ : Type}

def written (world : World F σ) (value : Value F) : Json :=
  value.written world.supplies

def writtenTarget? (world : World F σ) : Target → Option Json
  | .slot key _ => some (world.written (world.slot key))
  | .sequence key _ => some (world.written (.list (world.sequence key)))
  | .external key _ _ => some (world.written (.list (world.receivedBy key)))
  | _ => none

end World

end Bindery
