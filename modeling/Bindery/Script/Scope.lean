import Bindery.Plan.Document
import Bindery.Script.Builtin

set_option autoImplicit false

namespace Bindery.Script

/-- The names of a running script. `objects` counts the numbers that objects have been given. -/
structure Scope where
  targets : Table Target := {}
  definitions : Table Definition := {}
  assigned : Table (Value Closure) := {}
  contexts : Table Nat := {}
  plans : Table Plan := {}
  objects : Nat := 0

abbrev Run := Action Closure Scope

/-- What an expression can see of the function or definition that it stands in. -/
structure Frame where
  argument : Option (Value Closure) := none
  params : Table (Value Closure) := {}

namespace Scope

def update (change : Scope → Scope) : Run PUnit :=
  modify fun world => { world with client := change world.client }

def current : Run Scope := do
  return (← get).client

def find {α : Type} (kind : NameKind) (table : Scope → Table α) (name : String) : Run α := do
  match (table (← current)).get? name with
  | some found => return found
  | none => throw (.fault (.unknown kind name))

def targetNamed (key : String) : Run Target := find .target Scope.targets key

def definitionNamed (name : String) : Run Definition := find .definition Scope.definitions name

def variableNamed (name : String) : Run (Value Closure) := find .variable Scope.assigned name

def contextNamed (name : String) : Run Nat := find .context Scope.contexts name

def planNamed (name : String) : Run Plan := find .plan Scope.plans name

def setVariable (name : String) (value : Value Closure) : Run PUnit :=
  update fun scope => { scope with assigned := scope.assigned.set name value }

def setContext (name : String) (context : Nat) : Run PUnit :=
  update fun scope => { scope with contexts := scope.contexts.set name context }

def setPlan (name : String) (plan : Plan) : Run PUnit :=
  update fun scope => { scope with plans := scope.plans.set name plan }

def namesOf (scope : Scope) (context : Nat) : List String :=
  ((scope.contexts.entries.filter (·.2 = context)).map (·.1)).mergeSort (· ≤ ·)

end Scope

def newNumber : Run Nat := do
  let number := (← Scope.current).objects
  Scope.update fun scope => { scope with objects := number + 1 }
  return number

/-- What a script takes hold of: an object gets its number, unless it has one already. -/
def takeHold (value : Value Closure) : Run (Value Closure) := do
  return value.numbered (← newNumber)

/-- The target that a value makes. The null value discards; any other takes no values. -/
def targetOfValue : Value Closure → Target
  | .null => .discard
  | value => .unusable value.typeName value.likeness

/-- The parameters of a call: arguments by position, defaults for those that were left out, and then
arguments by name. -/
def bindParams (definition : Definition) (arguments : List (Value Closure))
    (named : List (String × Value Closure)) : Table (Value Closure) :=
  let positional := Table.ofList (definition.params.zip arguments)
  let complete := definition.defaults.foldl
    (fun params entry =>
      if params.contains entry.1 then params else params.set entry.1 entry.2.toValue)
    positional
  named.foldl (fun params entry => params.set entry.1 entry.2) complete

def newIterator (failure : Option String) (items : List (Value Closure)) :
    Run (Value Closure) := do
  let number := (← get).supplies.length
  modify fun world => { world with supplies := world.supplies ++ [{ items, failure }] }
  return .iterator number

/-- The content of a declared target, or the error that it has none. -/
def contentOf (target : Target) : Run (Value Closure) := do
  let world ← get
  match target with
  | .slot key _ => return world.slot key
  | .sequence key _ => return .list (world.sequence key)
  | .external key _ _ => return .list (world.receivedBy key)
  | _ => throw (.fault .unreadable)

end Bindery.Script
