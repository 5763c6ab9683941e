import Bindery.Script.Scope

set_option autoImplicit false

namespace Bindery.Script

/-- The meaning of expressions and statements in runs of a bounded depth. -/
structure Runner where
  depth : Nat
  eval : Frame → Expr → Run (Value Closure)
  exec : Frame → Stmt → Run Json

namespace Runner

/-- A function of a script sees its argument, and the parameters of the place where it was
made. -/
def meaning (runner : Runner) : Meaning Closure Scope :=
  .standard fun
    | .make result params, argument => runner.eval { argument, params := ⟨params⟩ } result

def evalAll (runner : Runner) (frame : Frame) : List Expr → Run (List (Value Closure))
  | [] => return []
  | expr :: rest => do
      let value ← runner.eval frame expr
      let values ← runner.evalAll frame rest
      return value :: values

def evalNamed (runner : Runner) (frame : Frame) :
    List (String × Expr) → Run (List (String × Value Closure))
  | [] => return []
  | (name, expr) :: rest => do
      let value ← runner.eval frame expr
      let values ← runner.evalNamed frame rest
      return (name, value) :: values

/-- Keys and values in turn, each key put in as soon as its value is known. -/
def evalEntries (runner : Runner) (frame : Frame)
    (entries : List (Value Closure × Value Closure)) :
    List (Expr × Expr) → Run (List (Value Closure × Value Closure))
  | [] => return entries
  | (keyExpr, valueExpr) :: rest => do
      let key ← runner.eval frame keyExpr
      let value ← runner.eval frame valueExpr
      let extended ← MonadExcept.ofExcept (addEntry entries key value)
      runner.evalEntries frame extended rest

def evalMethods (runner : Runner) (frame : Frame) :
    List (Operation × Expr) → Run (List (Operation × Value Closure))
  | [] => return []
  | (operation, expr) :: rest => do
      let value ← runner.eval frame expr
      let values ← runner.evalMethods frame rest
      return (operation, value) :: values

/-- Run statements in order and drop their results. -/
def execAll (runner : Runner) (frame : Frame) : List Stmt → Run PUnit
  | [] => return ()
  | statement :: rest => do
      let _ ← runner.exec frame statement
      runner.execAll frame rest

def callback (runner : Runner) (frame : Frame) : FunctionExpr → Run (Callback Closure)
  | .body result => return .function (.make result frame.params.entries)
  | .value expr => do
      let value ← runner.eval frame expr
      return .object value.typeName

def description (runner : Runner) (frame : Frame) : Block → Run (Description Closure Scope)
  | .body name statements => return fun context => do
      Scope.setContext name context
      runner.execAll frame statements
  | .value expr => do
      let value ← runner.eval frame expr
      return .ofObject value.typeName

mutual

def target (runner : Runner) (frame : Frame) : TargetExpr → Run Target
  | .discard => return .discard
  | .declared key => Scope.targetNamed key
  | .tuple parts => do
      let targets ← targets runner frame parts
      return .tuple targets
  | .value expr => do return targetOfValue (← runner.eval frame expr)
  | .bad => do return .unusable .badTarget (.object (some (← newNumber)))

def targets (runner : Runner) (frame : Frame) : List TargetExpr → Run (List Target)
  | [] => return []
  | part :: rest => do
      let first ← target runner frame part
      let others ← targets runner frame rest
      return first :: others

end

/-- Call a definition: its block is run with the parameters of the call and no argument. -/
def callDefinition (runner : Runner) (definition : Definition)
    (params : Table (Value Closure)) : Run (Value Closure) :=
  Description.chain runner.meaning fun context => do
    let description ← runner.description { params } definition.block
    description context

end Runner

end Bindery.Script
