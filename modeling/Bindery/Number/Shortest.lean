import Bindery.Number.Binary64

set_option autoImplicit false

namespace Bindery.Binary64

/-- The reals that round to a positive double, as fractions over one denominator. -/
structure Interval where
  low : Nat
  value : Nat
  high : Nat
  denominator : Nat
  closed : Bool

/-- Half a unit on either side, but a quarter below a power of two, whose lower neighbour is
nearer. The ends belong to the interval of an even mantissa. -/
def interval (mantissa : Nat) (exponent : Int) : Interval :=
  let (up, down) := power 2 exponent
  let below := if mantissa = Nat.pow 2 52 ∧ -1074 < exponent then 1 else 2
  { low := (4 * mantissa - below) * up
    value := 4 * mantissa * up
    high := (4 * mantissa + 2) * up
    denominator := 4 * down
    closed := mantissa % 2 == 0 }

def Interval.contains (range : Interval) (digits : Nat) (scale : Int) : Bool :=
  let (up, down) := power 10 scale
  let point := digits * up * range.denominator
  if range.closed then range.low * down ≤ point && point ≤ range.high * down
  else range.low * down < point && point < range.high * down

/-- Of the two neighbours of the value on the grid of multiples of `10 ^ scale`, the one in the
interval, or the nearer one when both are. -/
def Interval.onGrid? (range : Interval) (scale : Int) : Option Nat :=
  let (up, down) := power 10 scale
  let unit := up * range.denominator
  let lower := range.value * down / unit
  let offset := range.value * down % unit
  let lowerFits := decide (0 < lower) && range.contains lower scale
  let upperFits := range.contains (lower + 1) scale
  if lowerFits && upperFits then
    if 2 * offset < unit then some lower
    else if unit < 2 * offset then some (lower + 1)
    else some (lower + lower % 2)
  else if lowerFits then some lower
  else if upperFits then some (lower + 1)
  else none

/-- The least `point` with `value < 10 ^ point`, looked for upwards. -/
def Interval.pointFrom (range : Interval) : Nat → Int → Int
  | 0, point => point
  | fuel + 1, point =>
      let (up, down) := power 10 point
      if range.value * down < up * range.denominator then point
      else range.pointFrom fuel (point + 1)

/-- The first grid with a hit, over 1, 2, … 17 digits. -/
def Interval.shortestFrom (range : Interval) (point : Int) : Nat → Int → Nat × Int
  | 0, scale => (range.value, scale)
  | fuel + 1, scale =>
      match range.onGrid? scale with
      | some digits => (digits, scale)
      | none => range.shortestFrom point fuel (scale - 1)

/-- Digits without trailing zeros, and the power of ten that they are multiplied by. -/
def stripZeros : Nat → Nat → Int → Nat × Int
  | 0, digits, scale => (digits, scale)
  | fuel + 1, digits, scale =>
      if digits ≠ 0 ∧ digits % 10 = 0 then stripZeros fuel (digits / 10) (scale + 1)
      else (digits, scale)

/-- The shortest decimal that rounds to a positive double, of several the nearest. -/
def shortest (mantissa : Nat) (exponent : Int) : Nat × Int :=
  let range := interval mantissa exponent
  let point := range.pointFrom 640 (-324)
  let (digits, scale) := range.shortestFrom point 18 (point - 1)
  stripZeros 18 digits scale

def positional (digits : List Char) (point : Int) : List Char :=
  if point ≤ 0 then
    ['0', '.'] ++ List.replicate (-point).toNat '0' ++ digits
  else if (digits.length : Int) ≤ point then
    digits ++ List.replicate (point.toNat - digits.length) '0' ++ ['.', '0']
  else
    digits.take point.toNat ++ '.' :: digits.drop point.toNat

/-- One digit before the point and an exponent of at least two digits. -/
def scientific (digits : List Char) (exponent : Int) : List Char :=
  let fraction := digits.drop 1
  let sign := if exponent < 0 then '-' else '+'
  let power := Nat.toDigits 10 exponent.natAbs
  digits.take 1 ++ (if fraction.isEmpty then [] else '.' :: fraction) ++
    'e' :: sign :: (if power.length < 2 then '0' :: power else power)

def decimalText (digits : Nat) (scale : Int) : List Char :=
  let text := Nat.toDigits 10 digits
  let point := scale + text.length
  if -4 < point ∧ point ≤ 16 then positional text point else scientific text (point - 1)

/-- The written form of a double: positional from `1e-4` up to below `1e16`, with an exponent
elsewhere. -/
def text : Binary64 → String
  | .finite negative mantissa exponent =>
      let sign := if negative then ['-'] else []
      if mantissa = 0 then String.ofList (sign ++ ['0', '.', '0'])
      else
        let (digits, scale) := shortest mantissa exponent
        String.ofList (sign ++ decimalText digits scale)
  | .infinite negative => if negative then "-inf" else "inf"
  | .nan _ => "nan"

end Bindery.Binary64
