import Bindery.Script.Statement

set_option autoImplicit false

namespace Bindery.Script

structure Answer where
  result : Except Error Json
  events : List Event
  changed : List (String × Json)
  depth : Nat

namespace Program

/-- The bound on the depth of a run, far above what a script needs. -/
def runDepth : Nat := 10000

def runner : Runner := Runner.withFuel runDepth

/-- Make a declared target, with its content if it has one from the start. -/
def declare (key : String) : Declaration → Run Target
  | .slot name initial => do
      match initial with
      | some expr =>
          let value ← runner.eval {} expr
          modify (·.setSlot key value)
      | none => pure ()
      return .slot key name
  | .sequence name => return .sequence key name
  | .external name failure => return .external key name fun _ _ => failure
  | .tuple parts => do return .tuple (← runner.targets {} parts)

/-- Make the declared targets in order, each known to those after it. -/
def declareAll : List (String × Declaration) → Run PUnit
  | [] => return ()
  | (key, declaration) :: rest => do
      let target ← declare key declaration
      Scope.update fun scope => { scope with targets := scope.targets.set key target }
      declareAll rest

def contents (world : World Closure Scope) : List (String × Json) :=
  world.client.targets.entries.filterMap fun (key, target) =>
    (world.writtenTarget? target).map fun content => (key, content)

/-- The contents that are written otherwise than before. -/
def changes (before after : List (String × Json)) : List (String × Json) :=
  after.filter fun (key, content) =>
    match before.lookup key with
    | some old => !old.alike content
    | none => true

def answer (world : World Closure Scope) (statement : Stmt) : Answer × World Closure Scope :=
  let (result, after) := (runner.exec {} statement).outcome { world with events := [] }
  ({ result
     events := after.events
     changed := changes (contents world) (contents after)
     depth := after.opened.length }, after)

def answers (world : World Closure Scope) : List Stmt → List Answer
  | [] => []
  | statement :: rest =>
      let (first, after) := answer world statement
      first :: answers after rest

def start : World Closure Scope := { client := {} }

/-- Run a script: its answers, or the error in its declarations. -/
def run (program : Program) : Except Error (List Answer) :=
  let prepare : Run PUnit := do
    declareAll program.declarations
    Scope.update fun scope => { scope with definitions := Table.ofList program.definitions }
  match prepare.outcome start with
  | (.ok _, world) => .ok (answers world program.statements)
  | (.error error, _) => .error error

end Program

end Bindery.Script
