import Bindery.Context

set_option autoImplicit false

namespace Bindery

variable {F σ : Type}

structure StepSummary where
  index : Nat
  kind : Target.Kind
  label : Json
  filters : Nat
  definitions : Nat
  hasBlock : Bool

def Step.summary (index : Nat) (step : Step F) : StepSummary :=
  { index
    kind := step.target.kind
    label := step.target.label
    filters := step.filters
    definitions := step.definitions
    hasBlock := step.hasBlock }

def summarizeFrom (index : Nat) : List (Step F) → List StepSummary
  | [] => []
  | step :: rest => step.summary index :: summarizeFrom (index + 1) rest

@[simp] theorem length_summarizeFrom (index : Nat) (steps : List (Step F)) :
    (summarizeFrom index steps).length = steps.length := by
  induction steps generalizing index with
  | nil => rfl
  | cons step rest ih => simp only [summarizeFrom, List.length_cons, ih]

structure Plan where
  steps : List StepRef := []
  deriving Inhabited

namespace Plan

/-- The plan of a description, which is run without chaining its steps. -/
def ofDescription (description : Description F σ) : Action F σ Plan := do
  return ⟨← description.steps⟩

def size (plan : Plan) : Nat := plan.steps.length

/-- The steps from one position up to another, as far as there are so many. -/
def slice (plan : Plan) (first last : Nat) : Plan :=
  ⟨(plan.steps.take last).drop first⟩

def append (left right : Plan) : Plan :=
  ⟨left.steps ++ right.steps⟩

def stepsIn (plan : Plan) (world : World F σ) : List (Step F) :=
  plan.steps.filterMap world.step?

def summariesIn (plan : Plan) (world : World F σ) : List StepSummary :=
  summarizeFrom 0 (plan.stepsIn world)

def chain (meaning : Meaning F σ) (plan : Plan) : Action F σ (Value F) :=
  chainSteps meaning plan.steps

end Plan

end Bindery
