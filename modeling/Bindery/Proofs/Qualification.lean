import Bindery.Chain
import Bindery.Proofs.Endings

set_option autoImplicit false

namespace Bindery

variable {F σ : Type}

def Qualifier.callback : Qualifier F → Callback F
  | .filter predicate => predicate
  | .define _ thunk => thunk

/-- Filter items by a predicate, settled first where the target has a sequence. -/
def filterItems (meaning : Meaning F σ) (target : Target) (predicate : Callback F)
    (items : List (Value F)) : Action F σ (List (Value F)) := do
  let settled ← if target.hasSequence then collect (settle target) items else pure items
  retain (testItem meaning target predicate) settled

/-- Run the qualifiers of a step on its items. `target` is the step's target before the first of
them. -/
def qualifyItems (meaning : Meaning F σ) :
    Target → List (Qualifier F) → List (Value F) → Action F σ (List (Value F))
  | _, [], items => return items
  | target, .filter predicate :: qualifiers, items => do
      let kept ← filterItems meaning target predicate items
      qualifyItems meaning target qualifiers kept
  | target, .define added thunk :: qualifiers, items => do
      let paired ← collect (pairItem meaning target added thunk) items
      qualifyItems meaning (.tuple [target, added]) qualifiers paired

@[simp] theorem requireMonadLike_listMonad (index : Int) (number : Option Nat) (traced : Bool)
    (items : List (Value F)) :
    (requireMonadLike index (.listMonad number traced items) : Action F σ PUnit) = pure () := rfl

@[simp] theorem requireMonadLike_deferred (index : Int) (number : Option Nat)
    (items : List (Value F)) (stages : List (Stage F)) :
    (requireMonadLike index (.deferred number items stages) : Action F σ PUnit) = pure () := rfl

variable (call : F → Option (Value F) → Action F σ (Value F))

theorem applyFilter_listMonad (index : Nat) (target : Target) (predicate : Callback F)
    (number : Option Nat) (items : List (Value F)) :
    applyFilter (.standard call) index target predicate (.listMonad number false items) =
      filterItems (.standard call) target predicate items >>=
        fun kept => pure (.listMonad none false kept) := by
  cases sequence : target.hasSequence <;>
    simp [applyFilter, filterItems, sequence, Meaning.standard, Value.map, Value.filter,
      recordApplied]

theorem applyDefinition_listMonad (index : Nat) (target added : Target) (thunk : Callback F)
    (number : Option Nat) (items : List (Value F)) :
    applyDefinition (.standard call) index target added thunk (.listMonad number false items) =
      collect (pairItem (.standard call) target added thunk) items >>=
        fun paired => pure (.listMonad none false paired) := by
  simp [applyDefinition, Meaning.standard, Value.map, recordApplied]

/-- The number that a monad keeps where no qualifier makes a new one. -/
def qualifiedNumber (number : Option Nat) : List (Qualifier F) → Option Nat
  | [] => number
  | _ :: _ => none

theorem applyQualifiers_listMonad (index : Nat) (target : Target)
    (qualifiers : List (Qualifier F)) (number : Option Nat) (items : List (Value F)) :
    applyQualifiers (.standard call) index target qualifiers (.listMonad number false items) =
      qualifyItems (.standard call) target qualifiers items >>=
        fun kept => pure (.listMonad (qualifiedNumber number qualifiers) false kept) := by
  induction qualifiers generalizing target number items with
  | nil => simp [applyQualifiers, qualifyItems, qualifiedNumber]
  | cons qualifier rest ih =>
      cases qualifier <;> cases rest <;>
        simp [applyQualifiers, qualifyItems, applyFilter_listMonad, applyDefinition_listMonad, ih,
          qualifiedNumber]

def filterStages (target : Target) (predicate : Callback F) : List (Stage F) :=
  (if target.hasSequence then [⟨.map, .settle target⟩] else []) ++
    [⟨.filter, .test target predicate⟩]

theorem applyFilter_deferred (index : Nat) (target : Target) (predicate : Callback F)
    (number : Option Nat) (items : List (Value F)) (stages : List (Stage F)) :
    applyFilter (.standard call) index target predicate (.deferred number items stages) =
      pure (.deferred none items (stages ++ filterStages target predicate)) := by
  cases sequence : target.hasSequence <;>
    simp [applyFilter, filterStages, sequence, Meaning.standard, Value.map, Value.filter]

theorem applyDefinition_deferred (index : Nat) (target added : Target) (thunk : Callback F)
    (number : Option Nat) (items : List (Value F)) (stages : List (Stage F)) :
    applyDefinition (.standard call) index target added thunk (.deferred number items stages) =
      pure (.deferred none items (stages ++ [⟨.map, .pair target added thunk⟩])) := by
  simp [applyDefinition, Meaning.standard, Value.map]

def qualifierStages : Target → List (Qualifier F) → List (Stage F)
  | _, [] => []
  | target, .filter predicate :: qualifiers =>
      filterStages target predicate ++ qualifierStages target qualifiers
  | target, .define added thunk :: qualifiers =>
      ⟨.map, .pair target added thunk⟩ :: qualifierStages (.tuple [target, added]) qualifiers

theorem applyQualifiers_deferred (index : Nat) (target : Target)
    (qualifiers : List (Qualifier F)) (number : Option Nat) (items : List (Value F))
    (stages : List (Stage F)) :
    applyQualifiers (.standard call) index target qualifiers (.deferred number items stages) =
      pure (.deferred (qualifiedNumber number qualifiers) items
        (stages ++ qualifierStages target qualifiers)) := by
  induction qualifiers generalizing target number stages with
  | nil => simp [applyQualifiers, qualifierStages, qualifiedNumber]
  | cons qualifier rest ih =>
      cases qualifier <;> cases rest <;>
        simp [applyQualifiers, qualifierStages, applyFilter_deferred, applyDefinition_deferred, ih,
          qualifiedNumber]

namespace Value

theorem runStages_append (meaning : Meaning F σ)
    (itemsOf : Value F → Action F σ (List (Value F))) (items : List (Value F))
    (first second : List (Stage F)) :
    runStages meaning itemsOf items (first ++ second) =
      runStages meaning itemsOf items first >>=
        fun reached => runStages meaning itemsOf reached second := by
  induction first generalizing items with
  | nil => simp [runStages]
  | cons stage rest ih => simp [runStages, ih]

theorem runStages_qualifierStages (meaning : Meaning F σ)
    (itemsOf : Value F → Action F σ (List (Value F))) (target : Target)
    (qualifiers : List (Qualifier F)) (items : List (Value F)) :
    runStages meaning itemsOf items (qualifierStages target qualifiers) =
      qualifyItems meaning target qualifiers items := by
  induction qualifiers generalizing target items with
  | nil => rfl
  | cons qualifier rest ih =>
      cases qualifier with
      | filter predicate =>
          cases sequence : target.hasSequence <;>
            simp [qualifierStages, filterStages, qualifyItems, filterItems, sequence, runStages,
              runStage, Continuation.apply, ih]
      | define added thunk =>
          simp [qualifierStages, qualifyItems, runStages, runStage, Continuation.apply, ih]

end Value

/-- What is done with the value of a step once its qualifiers are applied. `now` is the step as it
is then: its block makes results, or else the steps that are left are chained for each item. -/
def finishValue (meaning : Meaning F σ) (step now : Step F) (rest : List StepRef) (index : Nat)
    (value : Value F) : Action F σ (Value F) :=
  if now.hasBlock then
    meaning.map (.conclude step.target now.block) (concludeItem meaning step.target now.block) value
  else
    match rest with
    | [] => return value
    | next :: others =>
        let proceed := Continuation.proceed step.target (next :: others) (index + 1)
        meaning.flatMap proceed (fun item => proceed.apply meaning item) value

theorem chainFrom_cons (meaning : Meaning F σ) (ref : StepRef) (rest : List StepRef)
    (index : Nat) :
    chainFrom meaning (ref :: rest) index =
      currentStep ref >>= fun step =>
        step.generate meaning ref.position >>= fun value =>
          requireMonadLike index value >>= fun _ =>
            currentStep ref >>= fun now => finishValue meaning step now rest index value := by
  cases rest <;> rfl

/-- The same for the items of an eager list. `itemsOf` gives the items of what is chained for an
item. -/
def finishItems (meaning : Meaning F σ) (itemsOf : Value F → Action F σ (List (Value F)))
    (step now : Step F) (rest : List StepRef) (index : Nat) (items : List (Value F)) :
    Action F σ (List (Value F)) :=
  if now.hasBlock then collect (concludeItem meaning step.target now.block) items
  else
    match rest with
    | [] => return items
    | next :: others =>
        let proceed := Continuation.proceed step.target (next :: others) (index + 1)
        gather itemsOf (fun item => proceed.apply meaning item) items

/-- The stages that a deferred list keeps for it. -/
def finishStages (step now : Step F) (rest : List StepRef) (index : Nat) : List (Stage F) :=
  if now.hasBlock then [⟨.map, .conclude step.target now.block⟩]
  else
    match rest with
    | [] => []
    | next :: others => [⟨.flatMap, .proceed step.target (next :: others) (index + 1)⟩]

/-- The number that a monad keeps where it is given back as it is. -/
def finishedNumber (number : Option Nat) (now : Step F) (rest : List StepRef) : Option Nat :=
  if now.hasBlock || !rest.isEmpty then none else number

theorem finishValue_listMonad (step now : Step F) (rest : List StepRef) (index : Nat)
    (number : Option Nat) (items : List (Value F)) :
    finishValue (.standard call) step now rest index (.listMonad number false items) =
      finishItems (.standard call) listItems step now rest index items >>= fun results =>
        pure (.listMonad (finishedNumber number now rest) false results) := by
  cases carried : now.hasBlock <;> cases rest <;>
    simp [finishValue, finishItems, finishedNumber, carried, Meaning.standard, Value.map,
      Value.flatMap, recordApplied]

theorem finishValue_deferred (step now : Step F) (rest : List StepRef) (index : Nat)
    (number : Option Nat) (items : List (Value F)) (stages : List (Stage F)) :
    finishValue (.standard call) step now rest index (.deferred number items stages) =
      pure (.deferred (finishedNumber number now rest) items
        (stages ++ finishStages step now rest index)) := by
  cases carried : now.hasBlock <;> cases rest <;>
    simp [finishValue, finishStages, finishedNumber, carried, Meaning.standard, Value.map,
      Value.flatMap]

theorem runStages_finishStages (meaning : Meaning F σ)
    (itemsOf : Value F → Action F σ (List (Value F))) (step now : Step F) (rest : List StepRef)
    (index : Nat) (items : List (Value F)) :
    Value.runStages meaning itemsOf items (finishStages step now rest index) =
      finishItems meaning itemsOf step now rest index items := by
  cases carried : now.hasBlock <;> cases rest <;>
    simp [finishStages, finishItems, carried, Value.runStages, Value.runStage, Continuation.apply]

end Bindery
