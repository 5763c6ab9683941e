import Bindery.Script.Runner

set_option autoImplicit false

namespace Bindery.Script

namespace Runner

/-- The value of an expression, by the values of its parts. -/
def evalStep (runner : Runner) (frame : Frame) : Expr → Run (Value Closure)
  | .constant value => return value.toValue
  | .argument =>
      match frame.argument with
      | some value => return value
      | none => throw (.fault .noArgument)
  | .param name =>
      match frame.params.get? name with
      | some value => return value
      | none => throw (.fault (.unknown .param name))
  | .variable name => Scope.variableNamed name
  | .read key => do contentOf (← Scope.targetNamed key)
  | .choose condition accepted refused => do
      let verdict ← runner.eval frame condition
      runner.eval frame (if verdict.isTrue then accepted else refused)
  | .both left right => do
      let first ← runner.eval frame left
      if first.isTrue then runner.eval frame right else return first
  | .either left right => do
      let first ← runner.eval frame left
      if first.isTrue then return first else runner.eval frame right
  | .negation operand => do
      let value ← runner.eval frame operand
      return .bool !value.isTrue
  | .arithmetic operator left right => do
      let first ← runner.eval frame left
      let second ← runner.eval frame right
      MonadExcept.ofExcept (operator.apply first second)
  | .alike left right => do
      let first ← runner.eval frame left
      let second ← runner.eval frame right
      let world ← get
      return .bool ((world.written first).alike (world.written second))
  | .unlike left right => do
      let first ← runner.eval frame left
      let second ← runner.eval frame right
      let world ← get
      return .bool !(world.written first).alike (world.written second)
  | .collection kind items => do return kind.build (← runner.evalAll frame items)
  | .iterator failure items => do newIterator failure (← runner.evalAll frame items)
  | .dictionary entries => do return .dictionary (← runner.evalEntries frame [] entries)
  | .octets hex => do return .octets (← MonadExcept.ofExcept (octets hex))
  | .buffer hex => do return .buffer (← MonadExcept.ofExcept (octets hex))
  | .float numeral => do MonadExcept.ofExcept (float (← newNumber) numeral)
  | .unbound => return .unbound
  | .range first last => do
      let low ← runner.eval frame first
      let high ← runner.eval frame last
      MonadExcept.ofExcept (range low high)
  | .length items => do MonadExcept.ofExcept (length (← runner.eval frame items))
  | .sum items => do MonadExcept.ofExcept (sum (← runner.eval frame items))
  | .nth items index => do
      let value ← runner.eval frame items
      let position ← runner.eval frame index
      MonadExcept.ofExcept (nth value position)
  | .join left right => do
      let first ← runner.eval frame left
      let second ← runner.eval frame right
      MonadExcept.ofExcept (join first second)
  | .monad kind items => do
      let value ← runner.eval frame items
      takeHold (← MonadExcept.ofExcept (kind.build value))
  | .just content => do takeHold (.just none (← runner.eval frame content))
  | .nothing => takeHold (.nothing none)
  | .stub methods attributes => do
      let results ← runner.evalMethods frame methods
      return .stub (← newNumber) results attributes
  | .force value => do
      return .list (← (← runner.eval frame value).force runner.meaning runner.depth)
  | .note label value => do
      let result ← runner.eval frame value
      Action.record (.noted label ((← get).written result))
      return result
  | .fail kind message => throw (.raised kind message)
  | .afterwards statements result => do
      runner.execAll frame statements
      runner.eval frame result
  | .chainBlock block => do
      let description ← runner.description frame block
      takeHold (← description.chain runner.meaning)
  | .call name arguments named => do
      let definition ← Scope.definitionNamed name
      let positional ← runner.evalAll frame arguments
      let keywords ← runner.evalNamed frame named
      takeHold (← runner.callDefinition definition (bindParams definition positional keywords))
  | .chainPlan name => do
      let plan ← Scope.planNamed name
      takeHold (← plan.chain runner.meaning)
  | .chainContext name => do
      let refs ← Context.stepRefs (← Scope.contextNamed name)
      takeHold (← chainSteps runner.meaning refs)
  | .generate name position => do
      let refs ← Context.stepRefs (← Scope.contextNamed name)
      let ref ← MonadExcept.ofExcept (stepAt refs position)
      let step ← currentStep ref
      takeHold (← step.generate runner.meaning ref.position)
  | .depth => do return .int (← Context.openDepth)

def evalWritten (runner : Runner) (frame : Frame) (expr : Expr) : Run Json := do
  let value ← runner.eval frame expr
  return (← get).written value

end Runner

end Bindery.Script
