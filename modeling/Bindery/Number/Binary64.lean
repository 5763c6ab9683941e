set_option autoImplicit false

namespace Bindery

/-- A double. The finite ones are `mantissa * 2 ^ exponent` with a mantissa below `2 ^ 53` and an
exponent of at least `-1074`. What is no number carries a payload, which tells one such value from
another. -/
inductive Binary64 where
  | finite (negative : Bool) (mantissa : Nat) (exponent : Int)
  | infinite (negative : Bool)
  | nan (payload : Nat)
  deriving DecidableEq, Inhabited

namespace Binary64

def isZero : Binary64 → Bool
  | .finite _ mantissa _ => mantissa == 0
  | _ => false

def power (base : Nat) : Int → Nat × Nat
  | .ofNat exponent => (base.pow exponent, 1)
  | .negSucc exponent => (1, base.pow (exponent + 1))

/-- The quotient rounded to the nearest number, a tie going to the even one. -/
def roundDiv (numerator denominator : Nat) : Nat :=
  let quotient := numerator / denominator
  let twice := 2 * (numerator % denominator)
  if twice < denominator then quotient
  else if denominator < twice then quotient + 1
  else quotient + quotient % 2

/-- `numerator / denominator` scaled by `2 ^ (-exponent)`, as a fraction. -/
def scaled (numerator denominator : Nat) (exponent : Int) : Nat × Nat :=
  let (up, down) := power 2 (-exponent)
  (numerator * up, denominator * down)

/-- The exponent at which the whole part of a positive fraction has 53 binary digits, or the least
exponent when it would lie below that. -/
def exponentOf (numerator denominator : Nat) : Int :=
  let guess : Int := (numerator.log2 : Int) - denominator.log2 - 52
  let (up, down) := scaled numerator denominator guess
  let exponent := if up / down < Nat.pow 2 52 then guess - 1 else guess
  max exponent (-1074)

def ofRatio (negative : Bool) (numerator denominator : Nat) : Binary64 :=
  if numerator = 0 then .finite negative 0 (-1074)
  else
    let exponent := exponentOf numerator denominator
    let (up, down) := scaled numerator denominator exponent
    let mantissa := roundDiv up down
    let (mantissa, exponent) :=
      if mantissa = Nat.pow 2 53 then (Nat.pow 2 52, exponent + 1) else (mantissa, exponent)
    if 971 < exponent then .infinite negative else .finite negative mantissa exponent

/-- The double nearest to `digits * 10 ^ exponent`. Far outside the range of doubles the answer is
known without forming the power. -/
def ofDecimal (negative : Bool) (digits : Nat) (exponent : Int) : Binary64 :=
  if digits = 0 then .finite negative 0 (-1074)
  else if 400 < exponent then .infinite negative
  else if exponent + (Nat.toDigits 10 digits).length < -400 then .finite negative 0 (-1074)
  else
    let (up, down) := power 10 exponent
    ofRatio negative (digits * up) down

def magnitude (mantissa : Nat) (exponent : Int) : Nat × Nat :=
  let (up, down) := power 2 exponent
  (mantissa * up, down)

end Binary64

end Bindery
