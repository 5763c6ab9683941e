import Bindery.Action
import Bindery.Written

set_option autoImplicit false

namespace Bindery

variable {F σ : Type}

/-- Take all items that an iterator has left, and then fail if it ends with an error. -/
def drain (number : Nat) : Action F σ (List (Value F)) := do
  match (← get).supplies[number]? with
  | none => return []
  | some supply =>
      modify fun world =>
        { world with supplies := world.supplies.set number { supply with items := [] } }
      match supply.failure with
      | none => return supply.items
      | some message => throw (.raised .value message)

/-- The items of a value that is to be held as a sequence. A container gives its items, a
dictionary its keys; texts, octet strings and all other values are sequences of one. -/
def sequenceItems : Value F → Action F σ (List (Value F))
  | .list items => return items
  | .tuple items => return items
  | .bundle components => return components
  | .dictionary entries => return entries.map (·.1)
  | .buffer octets => return octets.map fun octet => .int octet.toNat
  | .iterator number => drain number
  | value => return [value]

/-- Send a value to an external target, which keeps it unless it refuses it with an error. -/
def send (key : String) (refusal : Option String) (value : Value F) : Action F σ PUnit := do
  Action.record (.captured key ((← get).written value))
  match refusal with
  | some message => throw (.raised .value message)
  | none => modify (·.receive key value)

mutual

/-- Write a value into a target. A tuple target takes bundles of its own length only, and its
parts are written in order. -/
def deposit : Target → Value F → Action F σ PUnit
  | .discard, _ => return ()
  | .slot key _, value =>
      modify (·.setSlot key value)
  | .sequence key _, value => do
      let items ← sequenceItems value
      modify (·.setSequence key items)
  | .external key _ hook, value =>
      send key (hook value.typeName value.likeness) value
  | .tuple parts, .bundle components =>
      if components.length = parts.length then depositAll parts components
      else throw (.arityMismatch components.length parts.length)
  | .tuple parts, value => throw (.notBundled parts.length value.typeName)
  | .unusable type _, _ => throw (.unsupportedTarget type)

def depositAll : List Target → List (Value F) → Action F σ PUnit
  | part :: parts, component :: components => do
      deposit part component
      depositAll parts components
  | _, _ => return ()

end

mutual

/-- The form of a value that can be deposited into a target again and again. -/
def settle : Target → Value F → Action F σ (Value F)
  | .sequence _ _, value => return .list (← sequenceItems value)
  | .tuple parts, .bundle components =>
      if components.length = parts.length then return .bundle (← settleAll parts components)
      else return .bundle components
  | _, value => return value

def settleAll : List Target → List (Value F) → Action F σ (List (Value F))
  | part :: parts, component :: components => do
      let first ← settle part component
      let rest ← settleAll parts components
      return first :: rest
  | _, _ => return []

end

def settleAndDeposit (target : Target) (value : Value F) : Action F σ (Value F) := do
  let settled ← settle target value
  deposit target settled
  return settled

end Bindery
