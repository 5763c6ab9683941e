import Bindery.Script.Expression

set_option autoImplicit false

namespace Bindery.Script

namespace Runner

def summaryDocuments (plan : Plan) : Run Json := do
  return .arr ((plan.summariesIn (← get)).map StepSummary.document)

def targetDocument (target : Target) : Json :=
  .obj
    [("holds_sequence", .bool target.hasSequence),
      ("kind", .str target.kind.text),
      ("label", target.label)]

def operationsDocument (value : Value Closure) : Json :=
  .obj
    [("is_monadic", .bool value.isMonadLike),
      ("isinstance", .bool value.isMonadShaped),
      ("missing", .arr (value.lacking.map fun operation => .str operation.text))]

def joinParts : List (String × Nat × Nat) → Run Plan
  | [] => return {}
  | (name, first, last) :: rest => do
      let plan ← Scope.planNamed name
      return (plan.slice first last).append (← joinParts rest)

def version : String := "0.1.0"

/-- Make a call on a context that a script names, or else on the innermost one. The name is looked
up before the call is prepared, the innermost context after that. -/
def register (runner : Runner) (named : Option String) (prepare : Run (Call Closure)) :
    Run Json := do
  let named ← named.mapM Scope.contextNamed
  let call ← prepare
  call.make runner.meaning named
  return .null

/-- Run a statement and give its result, by the runs of its parts. -/
def execStep (runner : Runner) (frame : Frame) : Stmt → Run Json
  | .draw named target source => runner.register named do
      let target ← runner.target frame target
      return .draw target (← runner.callback frame source)
  | .restrict named predicate => runner.register named do
      return .restrict (← runner.callback frame predicate)
  | .define named target thunk => runner.register named do
      let target ← runner.target frame target
      return .define target (← runner.callback frame thunk)
  | .conclude named block => runner.register named do
      return .conclude (← runner.callback frame block)
  | .evaluate expr => runner.evalWritten frame expr
  | .assign name expr => do
      let value ← runner.eval frame expr
      Scope.setVariable name value
      return (← get).written value
  | .attempt body => do
      try runner.execAll frame body
      catch error => Action.record (.caught error)
      return .null
  | .nested name body => do
      Context.withNew fun context => do
        Scope.setContext name context
        runner.execAll frame body
      return .null
  | .newContext name => do
      Scope.setContext name (← Context.create)
      return .null
  | .steps name => do
      let refs ← Context.stepRefs (← Scope.contextNamed name)
      return .arr [.int refs.length, ← summaryDocuments ⟨refs⟩]
  | .current operation => do
      let context ← Context.innermost operation
      let names := (← Scope.current).namesOf context
      Action.record (.current names)
      return .arr (names.map .str)
  | .plan name block => do
      let plan ← Plan.ofDescription (← runner.description frame block)
      Scope.setPlan name plan
      return .int plan.size
  | .joinPlans name parts => do
      let plan ← joinParts parts
      Scope.setPlan name plan
      return .int plan.size
  | .summaries name => do summaryDocuments (← Scope.planNamed name)
  | .document name => do return (← Scope.planNamed name).document (← get)
  | .jsonText name => do return .str ((← Scope.planNamed name).jsonText (← get))
  | .yamlText name => do return .str ((← Scope.planNamed name).yamlText (← get))
  | .report name warnings => do
      let plan ← Scope.planNamed name
      let report := Report.ofSummaries (plan.summariesIn (← get))
      return (warnings.foldl Report.warn report).document
  | .deposit target value => do
      let target ← runner.target frame target
      deposit target (← runner.eval frame value)
      return .null
  | .holdsValue target => do
      match ← runner.target frame target with
      | .slot key _ =>
          match (← get).slot key with
          | .unbound => return .bool false
          | _ => return .bool true
      | other => throw (.missingMember "is_bound" other.typeName)
  | .targetInfo target => do return targetDocument (← runner.target frame target)
  | .targetsEqual left right => do
      let first ← runner.target frame left
      return .bool (first.equals (← runner.target frame right))
  | .settle target value => do
      let target ← runner.target frame target
      let settled ← settle target (← runner.eval frame value)
      return (← get).written settled
  | .sequenceItems value => do
      let items ← sequenceItems (← runner.eval frame value)
      return (← get).written (.list items)
  | .operations value => do return operationsDocument (← runner.eval frame value)
  | .requireMonadLike value index => do
      let value ← runner.eval frame value
      requireMonadLike index value
      return (← get).written value
  | .literal value => do
      return .str (String.ofList (Literal.value (← runner.eval frame value)))
  | .definitionName name => do
      let _ ← Scope.definitionNamed name
      return .str name
  | .version => return .str version

/-- The meaning of runs that nest no deeper than the fuel says. -/
def withFuel : Nat → Runner
  | 0 =>
      { depth := 0
        eval := fun _ _ => throw .exhausted
        exec := fun _ _ => throw .exhausted }
  | fuel + 1 =>
      let smaller := withFuel fuel
      { depth := fuel
        eval := smaller.evalStep
        exec := smaller.execStep }

end Runner

end Bindery.Script
