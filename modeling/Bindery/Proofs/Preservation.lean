import Bindery.Proofs.Frame
import Bindery.Proofs.Snapshot
import Bindery.Proofs.Qualification

set_option autoImplicit false

namespace Bindery

open Bindery.Action

variable {F σ α β : Type}

/-- An action keeps whatever all functions keep, apart from what targets hold. -/
def Ordinary (call : F → Option (Value F) → Action F σ (Value F)) (action : Action F σ α) : Prop :=
  ∀ invariant : World F σ → Prop, IgnoresTargets invariant →
    (∀ body argument, Preserves invariant (call body argument)) → Preserves invariant action

variable {call : F → Option (Value F) → Action F σ (Value F)}

theorem ordinary_pure (value : α) : Ordinary call (pure value) :=
  fun _ _ _ => preserves_pure value

theorem ordinary_throw (error : Error) : Ordinary call (throw error : Action F σ α) :=
  fun _ _ _ => preserves_throw error

theorem Ordinary.bind {action : Action F σ α} {next : α → Action F σ β}
    (first : Ordinary call action) (rest : ∀ value, Ordinary call (next value)) :
    Ordinary call (action >>= next) :=
  fun invariant ignores keeps =>
    (first invariant ignores keeps).bind fun value => rest value invariant ignores keeps

theorem Ordinary.ite {condition : Prop} [Decidable condition] {accepted refused : Action F σ α}
    (first : Ordinary call accepted) (second : Ordinary call refused) :
    Ordinary call (if condition then accepted else refused) := by
  split
  · exact first
  · exact second

theorem ordinary_record (event : Event) : Ordinary call (record event) :=
  fun _ ignores _ => preserves_modify fun world holds => ignores world _ _ _ _ _ holds

theorem ordinary_recordApplied (traced : Bool) (operation : Operation) (items : List (Value F)) :
    Ordinary call (recordApplied traced operation items) :=
  (ordinary_record _).ite (ordinary_pure _)

theorem ordinary_call (callback : Callback F) (argument : Option (Value F)) :
    Ordinary call (callback.call (.standard call) argument) := by
  cases callback with
  | function body => exact fun _ _ keeps => keeps body argument
  | object type => exact ordinary_throw _

theorem ordinary_settle (target : Target) (value : Value F) :
    Ordinary call (settle target value) :=
  fun _ ignores _ => settle_preserves ignores.ignoresSupplies target value

theorem ordinary_deposit (target : Target) (value : Value F) :
    Ordinary call (deposit target value) :=
  fun _ ignores _ => deposit_preserves ignores target value

theorem ordinary_settleAndDeposit (target : Target) (value : Value F) :
    Ordinary call (settleAndDeposit target value) :=
  (ordinary_settle target value).bind fun settled =>
    (ordinary_deposit target settled).bind fun _ => ordinary_pure _

theorem ordinary_testItem (target : Target) (predicate : Callback F) (item : Value F) :
    Ordinary call (testItem (.standard call) target predicate item) :=
  (ordinary_deposit target item).bind fun _ => ordinary_call predicate _

theorem ordinary_pairItem (target added : Target) (thunk : Callback F) (item : Value F) :
    Ordinary call (pairItem (.standard call) target added thunk item) :=
  (ordinary_settleAndDeposit target item).bind fun _ =>
    (ordinary_call thunk none).bind fun defined =>
      (ordinary_settle added defined).bind fun _ => ordinary_pure _

theorem ordinary_concludeItem (target : Target) (block : Callback F) (item : Value F) :
    Ordinary call (concludeItem (.standard call) target block item) :=
  (ordinary_settleAndDeposit target item).bind fun _ => ordinary_call block _

section Operations

variable {run : ItemAction F σ} (each : ∀ item, Ordinary call (run item))
include each

theorem ordinary_collect (items : List (Value F)) : Ordinary call (collect run items) :=
  fun invariant ignores keeps =>
    collect_preserves items fun item => each item invariant ignores keeps

theorem ordinary_retain (items : List (Value F)) : Ordinary call (retain run items) :=
  fun invariant ignores keeps =>
    retain_preserves items fun item => each item invariant ignores keeps

theorem ordinary_gather {itemsOf : Value F → Action F σ (List (Value F))}
    (eachItems : ∀ value, Ordinary call (itemsOf value)) (items : List (Value F)) :
    Ordinary call (gather itemsOf run items) :=
  fun invariant ignores keeps =>
    gather_preserves items fun item =>
      ((each item).bind eachItems) invariant ignores keeps

end Operations

theorem ordinary_listItems (value : Value F) : Ordinary call (listItems value) :=
  fun _ _ _ => listItems_preserves value

theorem ordinary_callStub (operation : Operation) (value : Value F) :
    Ordinary call (callStub operation value) := by
  cases value with
  | stub number methods attributes =>
      rw [callStub]
      cases methods.lookup operation with
      | none => exact ordinary_throw _
      | some result => exact (ordinary_record _).bind fun _ => ordinary_pure _
  | _ => exact ordinary_throw _

namespace Value

variable {run : ItemAction F σ} (continuation : Continuation F)
  (each : ∀ item, Ordinary call (run item))
include each

theorem ordinary_map (value : Value F) : Ordinary call (map continuation run value) := by
  cases value with
  | listMonad number traced items =>
      exact (ordinary_recordApplied _ _ _).bind fun _ =>
        (ordinary_collect each items).bind fun _ => ordinary_pure _
  | just number content => exact (each content).bind fun _ => ordinary_pure _
  | nothing number => exact ordinary_pure _
  | deferred number items stages => exact ordinary_pure _
  | _ =>
      simp only [map]
      exact ordinary_callStub _ _

theorem ordinary_filter (value : Value F) : Ordinary call (filter continuation run value) := by
  cases value with
  | listMonad number traced items =>
      exact (ordinary_recordApplied _ _ _).bind fun _ =>
        (ordinary_retain each items).bind fun _ => ordinary_pure _
  | just number content => exact (each content).bind fun _ => ordinary_pure _
  | nothing number => exact ordinary_pure _
  | deferred number items stages => exact ordinary_pure _
  | _ =>
      simp only [filter]
      exact ordinary_callStub _ _

theorem ordinary_flatMap (value : Value F) : Ordinary call (flatMap continuation run value) := by
  cases value with
  | listMonad number traced items =>
      exact (ordinary_recordApplied _ _ _).bind fun _ =>
        (ordinary_gather each ordinary_listItems items).bind fun _ => ordinary_pure _
  | just number content => exact each content
  | nothing number => exact ordinary_pure _
  | deferred number items stages => exact ordinary_pure _
  | _ =>
      simp only [flatMap]
      exact ordinary_callStub _ _

end Value

theorem ordinary_requireMonadLike (index : Int) (value : Value F) :
    Ordinary call (requireMonadLike index value) :=
  (ordinary_pure _).ite (ordinary_throw _)

theorem ordinary_applyFilter (index : Nat) (target : Target) (predicate : Callback F)
    (value : Value F) :
    Ordinary call (applyFilter (.standard call) index target predicate value) := by
  have tested : ∀ item, Ordinary call (testItem (.standard call) target predicate item) :=
    ordinary_testItem target predicate
  refine (ordinary_requireMonadLike _ _).bind fun _ => Ordinary.ite ?_ ?_
  · exact (Value.ordinary_map _ (ordinary_settle target) value).bind fun settled =>
      (ordinary_requireMonadLike _ _).bind fun _ => Value.ordinary_filter _ tested settled
  · exact Value.ordinary_filter _ tested value

theorem ordinary_applyDefinition (index : Nat) (target added : Target) (thunk : Callback F)
    (value : Value F) :
    Ordinary call (applyDefinition (.standard call) index target added thunk value) :=
  (ordinary_requireMonadLike _ _).bind fun _ =>
    Value.ordinary_map _ (ordinary_pairItem target added thunk) value

theorem ordinary_applyQualifiers (index : Nat) (target : Target)
    (qualifiers : List (Qualifier F)) (value : Value F) :
    Ordinary call (applyQualifiers (.standard call) index target qualifiers value) := by
  induction qualifiers generalizing target value with
  | nil => exact ordinary_pure _
  | cons qualifier rest ih =>
      cases qualifier with
      | filter predicate =>
          exact (ordinary_applyFilter index target predicate value).bind fun kept => ih target kept
      | define added thunk =>
          exact (ordinary_applyDefinition index target added thunk value).bind fun paired =>
            ih _ paired

theorem ordinary_generate (index : Nat) (step : Step F) :
    Ordinary call (step.generate (.standard call) index) :=
  (ordinary_call step.source none).bind fun value =>
    ordinary_applyQualifiers index step.ownTarget step.qualifiers value

theorem ordinary_currentStep (ref : StepRef) : Ordinary call (currentStep ref) :=
  fun _ _ _ => currentStep_preserves ref

theorem ordinary_checkStructure (refs : List StepRef) : Ordinary call (checkStructure refs) :=
  fun _ _ _ => checkStructure_preserves refs

/-- What is done with the value of a step is ordinary if chaining the steps that are left is. -/
theorem ordinary_finishValue_of {rest : List StepRef}
    (chained : ∀ index, Ordinary call (chainFrom (.standard call) rest index)) (step now : Step F)
    (index : Nat) (value : Value F) :
    Ordinary call (finishValue (.standard call) step now rest index value) := by
  refine Ordinary.ite ?_ ?_
  · exact Value.ordinary_map _ (ordinary_concludeItem step.target now.block) value
  · cases rest with
    | nil => exact ordinary_pure _
    | cons next others =>
        exact Value.ordinary_flatMap _ (fun item =>
          (ordinary_settleAndDeposit step.target item).bind fun _ => chained (index + 1)) value

theorem ordinary_chainFrom (refs : List StepRef) (index : Nat) :
    Ordinary call (chainFrom (.standard call) refs index) := by
  induction refs generalizing index with
  | nil => exact ordinary_throw _
  | cons ref rest ih =>
      rw [chainFrom_cons]
      refine (ordinary_currentStep ref).bind fun step =>
        (ordinary_generate _ step).bind fun value => (ordinary_requireMonadLike _ _).bind fun _ =>
          (ordinary_currentStep ref).bind fun now => ordinary_finishValue_of ih step now index value

theorem ordinary_chainSteps (refs : List StepRef) :
    Ordinary call (chainSteps (.standard call) refs) := by
  rw [chainSteps_eq_check]
  exact (ordinary_checkStructure refs).bind fun _ => ordinary_chainFrom refs 0

theorem ordinary_finishValue (step now : Step F) (rest : List StepRef) (index : Nat)
    (value : Value F) :
    Ordinary call (finishValue (.standard call) step now rest index value) :=
  ordinary_finishValue_of (ordinary_chainFrom rest) step now index value

theorem ordinary_apply (continuation : Continuation F) (item : Value F) :
    Ordinary call (continuation.apply (.standard call) item) := by
  cases continuation with
  | test target predicate => exact ordinary_testItem target predicate item
  | settle target => exact ordinary_settle target item
  | pair previous target thunk => exact ordinary_pairItem previous target thunk item
  | conclude target block => exact ordinary_concludeItem target block item
  | proceed target rest index =>
      exact (ordinary_settleAndDeposit target item).bind fun _ => ordinary_chainFrom rest index

namespace Value

theorem ordinary_runStages {itemsOf : Value F → Action F σ (List (Value F))}
    (eachItems : ∀ value, Ordinary call (itemsOf value)) (items : List (Value F))
    (stages : List (Stage F)) :
    Ordinary call (runStages (.standard call) itemsOf items stages) := by
  induction stages generalizing items with
  | nil => exact ordinary_pure _
  | cons stage rest ih =>
      have each : ∀ item, Ordinary call (stage.continuation.apply (.standard call) item) :=
        ordinary_apply stage.continuation
      refine Ordinary.bind ?_ fun next => ih next
      unfold runStage
      cases stage.operation with
      | map => exact ordinary_collect each items
      | filter => exact ordinary_retain each items
      | flatMap => exact ordinary_gather each eachItems items
      | unit => exact ordinary_pure _

theorem ordinary_force (fuel : Nat) (value : Value F) :
    Ordinary call (force (.standard call) fuel value) := by
  induction fuel generalizing value with
  | zero =>
      cases value with
      | listMonad number traced items => exact ordinary_pure _
      | _ => exact ordinary_throw _
  | succ fuel ih =>
      cases value with
      | listMonad number traced items => exact ordinary_pure _
      | deferred number items stages => exact ordinary_runStages ih items stages
      | _ => exact ordinary_throw _

end Value

end Bindery
