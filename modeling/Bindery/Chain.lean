import Bindery.Monadic

set_option autoImplicit false

namespace Bindery

variable {F σ : Type}

def testItem (meaning : Meaning F σ) (target : Target) (predicate : Callback F)
    (item : Value F) : Action F σ (Value F) := do
  deposit target item
  predicate.call meaning (some item)

def pairItem (meaning : Meaning F σ) (previous target : Target) (thunk : Callback F)
    (item : Value F) : Action F σ (Value F) := do
  let settled ← settleAndDeposit previous item
  let defined ← thunk.call meaning none
  return .bundle [settled, ← settle target defined]

def concludeItem (meaning : Meaning F σ) (target : Target) (block : Callback F)
    (item : Value F) : Action F σ (Value F) := do
  let settled ← settleAndDeposit target item
  block.call meaning (some settled)

/-- Keep the items that pass a filter. Where the target has a sequence the items are settled
first, so that no one-shot iterator is used up by the filter. -/
def applyFilter (meaning : Meaning F σ) (index : Nat) (target : Target) (predicate : Callback F)
    (value : Value F) : Action F σ (Value F) := do
  requireMonadLike index value
  let test := testItem meaning target predicate
  if target.hasSequence then
    let settled ← meaning.map (.settle target) (settle target) value
    requireMonadLike index settled
    meaning.filter (.test target predicate) test settled
  else
    meaning.filter (.test target predicate) test value

def applyDefinition (meaning : Meaning F σ) (index : Nat) (previous target : Target)
    (thunk : Callback F) (value : Value F) : Action F σ (Value F) := do
  requireMonadLike index value
  meaning.map (.pair previous target thunk) (pairItem meaning previous target thunk) value

/-- Apply the qualifiers of a step to the value that its source returned. `target` is the step's
target before the first of them. -/
def applyQualifiers (meaning : Meaning F σ) (index : Nat) :
    Target → List (Qualifier F) → Value F → Action F σ (Value F)
  | _, [], value => return value
  | target, .filter predicate :: qualifiers, value => do
      let kept ← applyFilter meaning index target predicate value
      applyQualifiers meaning index target qualifiers kept
  | target, .define added thunk :: qualifiers, value => do
      let paired ← applyDefinition meaning index target added thunk value
      applyQualifiers meaning index (.tuple [target, added]) qualifiers paired

/-- Call the source of a step and apply its qualifiers. `index` is the step's place in its
context. -/
def Step.generate (meaning : Meaning F σ) (index : Nat) (step : Step F) :
    Action F σ (Value F) := do
  let value ← step.source.call meaning none
  applyQualifiers meaning index step.ownTarget step.qualifiers value

def currentStep (ref : StepRef) : Action F σ (Step F) := do
  match (← get).step? ref with
  | some step => return step
  | none => throw .noSuchStep

/-- Chain the steps from the one with number `index` on. A block of results is looked up only
after the step's source has run. -/
def chainFrom (meaning : Meaning F σ) : List StepRef → Nat → Action F σ (Value F)
  | [], _ => throw .noSteps
  | ref :: rest, index => do
      let step ← currentStep ref
      let value ← step.generate meaning ref.position
      requireMonadLike index value
      let now ← currentStep ref
      if now.hasBlock then
        meaning.map (.conclude step.target now.block)
          (concludeItem meaning step.target now.block) value
      else
        match rest with
        | [] => return value
        | next :: others =>
            meaning.flatMap (.proceed step.target (next :: others) (index + 1))
              (fun item => do
                let _ ← settleAndDeposit step.target item
                chainFrom meaning (next :: others) (index + 1))
              value

/-- Fail when a step before the last carries a block of results. `index` is the number of the
first step listed, and `total` that of all steps. -/
def checkBlockPlace (total : Nat) : List StepRef → Nat → Action F σ PUnit
  | ref :: next :: rest, index => do
      let step ← currentStep ref
      if step.hasBlock then throw (.misplacedBlock index total)
      else checkBlockPlace total (next :: rest) (index + 1)
  | _, _ => return ()

def chainSteps (meaning : Meaning F σ) (steps : List StepRef) : Action F σ (Value F) := do
  if steps.isEmpty then throw .noSteps
  checkBlockPlace steps.length steps 0
  chainFrom meaning steps 0

def Continuation.apply (meaning : Meaning F σ) (item : Value F) :
    Continuation F → Action F σ (Value F)
  | .test target predicate => testItem meaning target predicate item
  | .settle target => Bindery.settle target item
  | .pair previous target thunk => pairItem meaning previous target thunk item
  | .conclude target block => concludeItem meaning target block item
  | .proceed target rest index => do
      let _ ← settleAndDeposit target item
      chainFrom meaning rest index

namespace Value

/-- Run one stage of a deferred value on all items. `itemsOf` gives the items of a dependent
computation's result. -/
def runStage (meaning : Meaning F σ) (itemsOf : Value F → Action F σ (List (Value F)))
    (items : List (Value F)) (stage : Stage F) : Action F σ (List (Value F)) :=
  let run := fun item => stage.continuation.apply meaning item
  match stage.operation with
  | .map => collect run items
  | .filter => retain run items
  | .flatMap => gather itemsOf run items
  | .unit => return items

def runStages (meaning : Meaning F σ) (itemsOf : Value F → Action F σ (List (Value F))) :
    List (Value F) → List (Stage F) → Action F σ (List (Value F))
  | items, [] => return items
  | items, stage :: stages => do
      let next ← runStage meaning itemsOf items stage
      runStages meaning itemsOf next stages

/-- The items of a list monad or of a deferred value, which is run from its start each time. The
results of dependent computations are forced in turn, `fuel` deep at most. -/
def force (meaning : Meaning F σ) : Nat → Value F → Action F σ (List (Value F))
  | _, .listMonad _ _ items => return items
  | 0, .deferred _ _ _ => throw .exhausted
  | fuel + 1, .deferred _ items stages => runStages meaning (force meaning fuel) items stages
  | _, _ => throw (.fault (.needs "force" .deferredOrList))

end Value

end Bindery
