import Bindery.Value

set_option autoImplicit false

namespace Bindery

/-- A filter or a definition folded into a step. -/
inductive Qualifier (F : Type) where
  | filter (predicate : Callback F)
  | define (target : Target) (thunk : Callback F)
  deriving Inhabited

namespace Qualifier

variable {F : Type}

/-- The target of a step after one more qualifier: a definition pairs it with its own target. -/
def retarget (target : Target) : Qualifier F → Target
  | .filter _ => target
  | .define added _ => .tuple [target, added]

def isFilter : Qualifier F → Bool
  | .filter _ => true
  | .define _ _ => false

end Qualifier

structure Step (F : Type) where
  ownTarget : Target
  source : Callback F
  qualifiers : List (Qualifier F) := []
  block : Callback F := .object .null
  deriving Inhabited

namespace Step

variable {F : Type}

/-- The target that the values of the step are captured into, all definitions included. -/
def target (step : Step F) : Target :=
  step.qualifiers.foldl Qualifier.retarget step.ownTarget

def filters (step : Step F) : Nat :=
  step.qualifiers.countP Qualifier.isFilter

def definitions (step : Step F) : Nat :=
  step.qualifiers.countP fun qualifier => !qualifier.isFilter

/-- Whether a block of results is attached. The null object is no block. -/
def hasBlock (step : Step F) : Bool :=
  !step.block.isNull

def qualified (step : Step F) (qualifier : Qualifier F) : Step F :=
  { step with qualifiers := step.qualifiers ++ [qualifier] }

@[simp] theorem target_qualified (step : Step F) (qualifier : Qualifier F) :
    (step.qualified qualifier).target = qualifier.retarget step.target := by
  simp [target, qualified]

@[simp] theorem filters_qualified (step : Step F) (qualifier : Qualifier F) :
    (step.qualified qualifier).filters = step.filters + if qualifier.isFilter then 1 else 0 := by
  simp [filters, qualified, List.countP_cons]

@[simp] theorem definitions_qualified (step : Step F) (qualifier : Qualifier F) :
    (step.qualified qualifier).definitions =
      step.definitions + if qualifier.isFilter then 0 else 1 := by
  cases h : qualifier.isFilter <;> simp [definitions, qualified, h]

end Step

end Bindery
