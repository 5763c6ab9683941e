import Bindery.Proofs.Agreement
import Bindery.Proofs.Deferral
import Bindery.Proofs.Preservation

set_option autoImplicit false

namespace Bindery

open Bindery.Action

variable {F σ α β : Type}

/-- One error, or two that differ only in the number of the step that gave no monad. -/
def Error.UpToIndex : Error → Error → Prop
  | .notMonadLike _ type lacking, .notMonadLike _ otherType otherLacking =>
      type = otherType ∧ lacking = otherLacking
  | error, other => error = other

theorem Error.upToIndex_refl (error : Error) : error.UpToIndex error := by
  cases error <;> simp [UpToIndex]

/-- Two actions do the same wherever an invariant holds, and keep it: they end in one state, with
related results or with one error up to the numbers of steps. -/
def Alike (invariant : World F σ → Prop) (relation : α → α → Prop)
    (first second : Action F σ α) : Prop :=
  ∀ world, invariant world → Together first second world world
    (fun value after other last => relation value other ∧ last = after ∧ invariant after)
    fun error after other last => error.UpToIndex other ∧ last = after

section Alike

variable {invariant : World F σ → Prop} {relation : α → α → Prop}

theorem alike_pure {value other : α} (related : relation value other) :
    Alike invariant relation (pure value) (pure other) :=
  fun _ holds => ⟨related, rfl, holds⟩

theorem alike_throw {error other : Error} (same : error.UpToIndex other) :
    Alike invariant relation (throw error) (throw other) :=
  fun _ _ => ⟨same, rfl⟩

theorem Alike.bind {first second : Action F σ α} {next nextSecond : α → Action F σ β}
    {result : β → β → Prop} (alike : Alike invariant relation first second)
    (rest : ∀ value other, relation value other →
      Alike invariant result (next value) (nextSecond other)) :
    Alike invariant result (first >>= next) (second >>= nextSecond) := by
  intro world holds
  refine ((alike world holds).mono ?_ fun _ _ _ _ failed => failed).bind
  rintro value after other last ⟨related, rfl, kept⟩
  exact rest value other related last kept

theorem alike_of_ends {action : Action F σ α} (preserves : Preserves invariant action)
    (ends : ∀ world, invariant world →
      action.Ends world (fun value _ => relation value value) fun _ _ => True) :
    Alike invariant relation action action := by
  intro world holds
  refine Together.of_ends ((ends world holds).and (preserves world holds)) ?_ ?_
  · rintro value after ⟨related, kept⟩
    exact ⟨related, rfl, kept⟩
  · exact fun error after _ => ⟨error.upToIndex_refl, rfl⟩

theorem alike_self {action : Action F σ α} (preserves : Preserves invariant action) :
    Alike invariant Eq action action :=
  alike_of_ends preserves fun _ _ => Ends.of_forall (fun _ _ => rfl) fun _ _ => trivial

theorem alike_requireMonadLike (index other : Int) (value : Value F) :
    Alike invariant (fun _ _ => value.isMonadLike = true) (requireMonadLike index value)
      (requireMonadLike other value) := by
  unfold requireMonadLike
  cases like : value.isMonadLike
  · exact alike_throw ⟨rfl, rfl⟩
  · exact alike_pure rfl

theorem alike_gather {itemsOf : Value F → Action F σ (List (Value F))} {run other : ItemAction F σ}
    (each : ∀ item, Alike invariant Eq (run item >>= itemsOf) (other item >>= itemsOf))
    (items : List (Value F)) :
    Alike invariant Eq (gather itemsOf run items) (gather itemsOf other items) := by
  induction items with
  | nil => exact alike_pure rfl
  | cons item rest ih =>
      rw [gather, gather, ← bind_assoc, ← bind_assoc]
      refine (each item).bind ?_
      rintro values _ rfl
      refine ih.bind ?_
      rintro others _ rfl
      exact alike_pure rfl

end Alike

namespace Value

/-- A value of the library's own monads. -/
def IsNative : Value F → Prop
  | .listMonad _ _ _ | .deferred _ _ _ | .just _ _ | .nothing _ => True
  | _ => False

/-- A value of the library's own monads, or no monad at all. -/
def IsStandard (value : Value F) : Prop :=
  value.IsNative ∨ value.isMonadLike = false

theorem IsStandard.isNative {value : Value F} (standard : value.IsStandard)
    (like : value.isMonadLike = true) : value.IsNative := by
  rcases standard with native | unlike
  · exact native
  · rw [like] at unlike
    cases unlike

theorem IsNative.isMonadLike {value : Value F} (native : value.IsNative) :
    value.isMonadLike = true := by
  cases value with
  | listMonad number traced items => rfl
  | deferred number items stages => rfl
  | just number content => rfl
  | nothing number => rfl
  | _ => exact native.elim

theorem ends_map_isNative (continuation : Continuation F) (run : ItemAction F σ) {value : Value F}
    (native : value.IsNative) (world : World F σ) :
    (value.map continuation run).Ends world (fun mapped _ => mapped.IsNative) fun _ _ => True := by
  cases value with
  | listMonad number traced items =>
      simp only [map, ends_bind, ends_pure]
      exact Ends.of_forall (fun _ after => Ends.of_forall (fun _ _ => trivial) fun _ _ => trivial)
        fun _ _ => trivial
  | just number content =>
      simp only [map, ends_bind, ends_pure]
      exact Ends.of_forall (fun _ _ => trivial) fun _ _ => trivial
  | deferred number items stages => trivial
  | nothing number => trivial
  | _ => exact native.elim

theorem ends_filter_isNative (continuation : Continuation F) (run : ItemAction F σ)
    {value : Value F} (native : value.IsNative) (world : World F σ) :
    (value.filter continuation run).Ends world (fun kept _ => kept.IsNative) fun _ _ => True := by
  cases value with
  | listMonad number traced items =>
      simp only [filter, ends_bind, ends_pure]
      exact Ends.of_forall (fun _ after => Ends.of_forall (fun _ _ => trivial) fun _ _ => trivial)
        fun _ _ => trivial
  | just number content =>
      simp only [filter, ends_bind, ends_pure]
      refine Ends.of_forall (fun verdict _ => ?_) fun _ _ => trivial
      cases verdict.isTrue <;> trivial
  | deferred number items stages => trivial
  | nothing number => trivial
  | _ => exact native.elim

end Value

theorem ends_requireMonadLike (index : Int) (value : Value F) (world : World F σ) :
    (requireMonadLike index value : Action F σ PUnit).Ends world
      (fun _ _ => value.isMonadLike = true) fun _ _ => True := by
  unfold requireMonadLike
  cases like : value.isMonadLike <;> simp

variable {call : F → Option (Value F) → Action F σ (Value F)}

theorem ends_applyQualifiers_isStandard (index : Nat) (target : Target)
    (qualifiers : List (Qualifier F)) {value : Value F} (standard : value.IsStandard)
    (world : World F σ) :
    (applyQualifiers (.standard call) index target qualifiers value).Ends world
      (fun qualified _ => qualified.IsStandard) fun _ _ => True := by
  induction qualifiers generalizing target value world with
  | nil => exact standard
  | cons qualifier rest ih =>
      cases qualifier with
      | filter predicate =>
          rw [applyQualifiers, ends_bind, applyFilter, ends_bind]
          refine (ends_requireMonadLike _ value world).imp fun _ after like => ?_
          have native := standard.isNative like
          split
          · rw [ends_bind]
            refine (Value.ends_map_isNative _ _ native after).imp fun settled reached mapped => ?_
            rw [ends_bind]
            refine (ends_requireMonadLike _ settled reached).imp fun _ last _ => ?_
            exact (Value.ends_filter_isNative _ _ mapped last).imp fun kept final filtered =>
              ih target (Or.inl filtered) final
          · exact (Value.ends_filter_isNative _ _ native after).imp fun kept final filtered =>
              ih target (Or.inl filtered) final
      | define added thunk =>
          rw [applyQualifiers, ends_bind, applyDefinition, ends_bind]
          refine (ends_requireMonadLike _ value world).imp fun _ after like => ?_
          exact (Value.ends_map_isNative _ _ (standard.isNative like) after).imp
            fun paired final mapped => ih _ (Or.inl mapped) final

/-- Two chained values are one, or they are deferred lists that do the same when they are forced. -/
inductive Composed (call : F → Option (Value F) → Action F σ (Value F))
    (invariant : World F σ → Prop) : Value F → Value F → Prop
  | same {value : Value F} (native : value.IsNative) : Composed call invariant value value
  | forced {number : Option Nat} {items : List (Value F)} {stages others : List (Stage F)}
      (alike : ∀ fuel, Alike invariant Eq
        (Value.force (.standard call) fuel (.deferred number items stages))
        (Value.force (.standard call) fuel (.deferred number items others))) :
      Composed call invariant (.deferred number items stages) (.deferred number items others)

section Chain

variable {invariant : World F σ → Prop} (ignores : IgnoresTargets invariant)
  (keeps : ∀ body argument, Preserves invariant (call body argument))

theorem Composed.isNative {value other : Value F} (composed : Composed call invariant value other) :
    other.IsNative := by
  cases composed with
  | same native => exact native
  | forced alike => trivial

theorem Composed.alike_listItems {value other : Value F}
    (composed : Composed call invariant value other) :
    Alike invariant Eq (listItems value : Action F σ (List (Value F))) (listItems other) := by
  cases composed with
  | same native => exact alike_self (listItems_preserves value)
  | forced alike => exact alike_throw (Error.upToIndex_refl _)

include ignores keeps in
theorem Composed.alike_force {value other : Value F}
    (composed : Composed call invariant value other) (fuel : Nat) :
    Alike invariant Eq (value.force (.standard call) fuel) (other.force (.standard call) fuel) := by
  cases composed with
  | same native => exact alike_self (Value.ordinary_force fuel value invariant ignores keeps)
  | forced alike => exact alike fuel

include ignores keeps in
theorem alike_flatMap {value : Value F} (native : value.IsNative) (one two : Continuation F)
    (each : ∀ item, Alike invariant (Composed call invariant) (one.apply (.standard call) item)
      (two.apply (.standard call) item)) :
    Alike invariant (Composed call invariant)
      (value.flatMap one (fun item => one.apply (.standard call) item))
      (value.flatMap two (fun item => two.apply (.standard call) item)) := by
  cases value with
  | listMonad number traced items =>
      refine (alike_self (ordinary_recordApplied traced _ items invariant ignores keeps)).bind
        fun _ _ _ => ?_
      refine (alike_gather (fun item => ?_) items).bind ?_
      · exact (each item).bind fun _ _ composed => composed.alike_listItems
      · rintro gathered _ rfl
        exact alike_pure (.same trivial)
  | just number content => exact each content
  | nothing number => exact alike_pure (.same trivial)
  | deferred number items stages =>
      refine alike_pure (.forced fun fuel => ?_)
      cases fuel with
      | zero => exact alike_throw (Error.upToIndex_refl _)
      | succ fuel =>
          rw [Value.force, Value.force, Value.runStages_append, Value.runStages_append]
          have earlier : ∀ value, Ordinary call (Value.force (.standard call) fuel value) :=
            Value.ordinary_force fuel
          refine (alike_self (Value.ordinary_runStages earlier items stages invariant ignores
            keeps)).bind ?_
          rintro reached _ rfl
          refine (alike_gather (fun item => ?_) reached).bind ?_
          · exact (each item).bind fun _ _ composed => composed.alike_force ignores keeps fuel
          · rintro gathered _ rfl
            exact alike_pure rfl
  | _ => exact native.elim

/-- The source of a step gives a value of the library's own monads or no monad at all. -/
def DrawsStandard (call : F → Option (Value F) → Action F σ (Value F))
    (invariant : World F σ → Prop) (step : Step F) : Prop :=
  ∀ world, invariant world → (step.source.call (.standard call) none).Ends world
    (fun value _ => value.IsStandard) fun _ _ => True

include ignores keeps in
theorem alike_generate {step : Step F} (draws : DrawsStandard call invariant step) (index : Nat) :
    Alike invariant (fun value other => value = other ∧ value.IsStandard)
      (step.generate (.standard call) index) (step.generate (.standard call) index) := by
  refine alike_of_ends (ordinary_generate index step invariant ignores keeps) fun world holds => ?_
  rw [Step.generate, ends_bind]
  refine (draws world holds).imp fun value after standard => ?_
  exact (ends_applyQualifiers_isStandard index step.ownTarget step.qualifiers standard after).imp
    fun _ _ qualified => ⟨rfl, qualified⟩

include ignores keeps in
theorem alike_chainFrom_cons {ref : StepRef} {rest others : List StepRef} {index other : Nat}
    (draws : ∀ world, invariant world → ∀ step, world.step? ref = some step →
      DrawsStandard call invariant step)
    (ends : rest = [] ↔ others = [])
    (chained : Alike invariant (Composed call invariant)
      (chainFrom (.standard call) rest (index + 1))
      (chainFrom (.standard call) others (other + 1))) :
    Alike invariant (Composed call invariant) (chainFrom (.standard call) (ref :: rest) index)
      (chainFrom (.standard call) (ref :: others) other) := by
  have found : Alike invariant
      (fun step same => step = same ∧ DrawsStandard call invariant step)
      (currentStep ref) (currentStep ref) := by
    refine alike_of_ends (currentStep_preserves ref) fun world holds => ?_
    rw [currentStep, ends_bind, ends_get]
    cases present : world.step? ref with
    | none => trivial
    | some step => exact ⟨rfl, draws world holds step present⟩
  rw [chainFrom_cons, chainFrom_cons]
  refine found.bind ?_
  rintro step _ ⟨rfl, standard⟩
  refine (alike_generate ignores keeps standard ref.position).bind ?_
  rintro value _ ⟨rfl, standard⟩
  refine (alike_requireMonadLike index other value).bind fun _ _ like => ?_
  have native := standard.isNative like
  refine found.bind ?_
  rintro now _ ⟨rfl, -⟩
  unfold finishValue
  split
  · refine alike_of_ends ?_ fun world _ =>
      (Value.ends_map_isNative _ _ native world).imp fun _ _ mapped => .same mapped
    exact Value.ordinary_map _ (ordinary_concludeItem step.target now.block) value invariant ignores
      keeps
  · cases rest with
    | nil =>
        rw [ends.mp rfl]
        exact alike_pure (.same native)
    | cons next later =>
        cases others with
        | nil => cases ends.mpr rfl
        | cons otherNext otherLater =>
            refine alike_flatMap ignores keeps native _ _ fun item => ?_
            refine (alike_self (ordinary_settleAndDeposit step.target item invariant ignores
              keeps)).bind fun _ _ _ => chained

end Chain

theorem outcome_checkStructure_of_bare {refs : List StepRef} {world : World F σ}
    (some_ref : refs ≠ [])
    (bare : ∀ ref ∈ refs.dropLast, ∃ step, world.step? ref = some step ∧ step.hasBlock = false) :
    (checkStructure refs).outcome world = (.ok (), world) := by
  have placed : ∀ (total index : Nat) (refs : List StepRef),
      (∀ ref ∈ refs.dropLast, ∃ step, world.step? ref = some step ∧ step.hasBlock = false) →
        (checkBlockPlace total refs index).outcome world = (.ok (), world) := by
    intro total index refs bare
    induction refs generalizing index with
    | nil => rfl
    | cons ref rest ih =>
        cases rest with
        | nil => rfl
        | cons next others =>
            rw [List.dropLast_cons_cons, List.forall_mem_cons] at bare
            obtain ⟨⟨step, found, unblocked⟩, later⟩ := bare
            simp only [checkBlockPlace, outcome_bind, outcome_currentStep found, unblocked,
              Bool.false_eq_true, ↓reduceIte]
            exact ih (index + 1) later
  cases refs with
  | nil => exact absurd rfl some_ref
  | cons ref rest => exact placed _ 0 _ bare

/-- A chain in two parts. The function `body` chains the steps of the second part, and `joint` is a
step that discards what this function gives. All other functions log their calls. No step before the
last carries a block of results, the sources give values of the library's own monads or no monads at
all, and no function changes the steps. -/
structure Splitting (plain : F → Option (Value F) → Action F σ (Value F))
    (call : F → Option (Value F) → Action F (σ × CallLog F) (Value F)) (body : F)
    (first second : List StepRef) (joint : StepRef) (start : World F σ) : Prop where
  logs : ∀ other, other ≠ body → call other = loggingCalls plain other
  chains : ∀ now, SameSteps (first ++ second ++ [joint]) start.beforeCalls now →
    (call body none).outcome now = (chainSteps (.standard call) second).outcome now
  joined : start.step? joint = some { ownTarget := .discard, source := .function body }
  nonempty : second ≠ []
  bare : ∀ ref ∈ first ++ second.dropLast,
    ∃ step, start.step? ref = some step ∧ step.hasBlock = false
  sources : ∀ ref ∈ first ++ second, ∀ step, start.step? ref = some step →
    DrawsStandard call (SameSteps (first ++ second ++ [joint]) start.beforeCalls) step
  keeps : ∀ other argument,
    Preserves (SameSteps (first ++ second ++ [joint]) start.beforeCalls) (call other argument)

namespace Splitting

variable {plain : F → Option (Value F) → Action F σ (Value F)}
  {call : F → Option (Value F) → Action F (σ × CallLog F) (Value F)} {body : F}
  {first second : List StepRef} {joint : StepRef} {start : World F σ}

theorem draws (splitting : Splitting plain call body first second joint start) {ref : StepRef}
    (member : ref ∈ first ++ second) {now : World F (σ × CallLog F)}
    (same : SameSteps (first ++ second ++ [joint]) start.beforeCalls now) (step : Step F)
    (found : now.step? ref = some step) :
    DrawsStandard call (SameSteps (first ++ second ++ [joint]) start.beforeCalls) step :=
  splitting.sources ref member step
    ((same ref (List.mem_append_left _ member)).symm.trans found)

/-- Where the numbers of the steps begin makes no difference but in errors. -/
theorem alike_renumbered (splitting : Splitting plain call body first second joint start)
    (refs : List StepRef) (listed : refs ⊆ first ++ second) (index other : Nat) :
    Alike (SameSteps (first ++ second ++ [joint]) start.beforeCalls)
      (Composed call (SameSteps (first ++ second ++ [joint]) start.beforeCalls))
      (chainFrom (.standard call) refs index) (chainFrom (.standard call) refs other) := by
  induction refs generalizing index other with
  | nil => exact alike_throw (Error.upToIndex_refl _)
  | cons ref rest ih =>
      rw [List.cons_subset] at listed
      exact alike_chainFrom_cons (sameSteps_ignoresTargets _ _) splitting.keeps
        (fun _ same step found => splitting.draws listed.1 same step found) Iff.rfl
        (ih listed.2 (index + 1) (other + 1))

theorem outcome_chainFrom_joint (splitting : Splitting plain call body first second joint start)
    (index : Nat) {now : World F (σ × CallLog F)}
    (same : SameSteps (first ++ second ++ [joint]) start.beforeCalls now) :
    (chainFrom (.standard call) [joint] index).outcome now =
      (chainFrom (.standard call) second 0 >>= fun value =>
        requireMonadLike index value >>= fun _ => currentStep joint >>= fun step =>
          finishValue (.standard call) { ownTarget := .discard, source := .function body } step []
            index value).outcome now := by
  have listed : joint ∈ first ++ second ++ [joint] := by simp
  have found : now.step? joint = some { ownTarget := .discard, source := .function body } :=
    (same joint listed).trans splitting.joined
  have passes : (checkStructure second).outcome now = (.ok (), now) := by
    refine outcome_checkStructure_of_bare splitting.nonempty fun ref member => ?_
    obtain ⟨step, present, unblocked⟩ := splitting.bare ref (List.mem_append_right _ member)
    have within : ref ∈ first ++ second ++ [joint] := by simp [List.dropLast_subset _ member]
    exact ⟨step, (same ref within).trans present, unblocked⟩
  have called : (call body none).outcome now =
      (chainFrom (.standard call) second 0).outcome now := by
    rw [splitting.chains now same, chainSteps_eq_check, outcome_bind, passes]
  have generated : Step.generate (.standard call) joint.position
      { ownTarget := .discard, source := .function body } = call body none :=
    bind_pure _
  rw [chainFrom_cons, outcome_bind, outcome_currentStep found]
  simp only [generated]
  rw [outcome_bind, called, ← outcome_bind]

theorem alike_joint (splitting : Splitting plain call body first second joint start) (index : Nat) :
    Alike (SameSteps (first ++ second ++ [joint]) start.beforeCalls)
      (Composed call (SameSteps (first ++ second ++ [joint]) start.beforeCalls))
      (chainFrom (.standard call) second index) (chainFrom (.standard call) [joint] index) := by
  have passed : Alike (SameSteps (first ++ second ++ [joint]) start.beforeCalls)
      (Composed call (SameSteps (first ++ second ++ [joint]) start.beforeCalls))
      (chainFrom (.standard call) second index >>= pure)
      (chainFrom (.standard call) second 0 >>= fun value =>
        requireMonadLike index value >>= fun _ => currentStep joint >>= fun step =>
          finishValue (.standard call) { ownTarget := .discard, source := .function body } step []
            index value) := by
    refine (splitting.alike_renumbered second (by simp) index 0).bind ?_
    intro value other composed now same
    have found : now.step? joint = some { ownTarget := .discard, source := .function body } :=
      (same joint (by simp)).trans splitting.joined
    refine Together.of_outcome_eq (alike_pure composed now same) rfl ?_
    simp only [requireMonadLike, composed.isNative.isMonadLike, ↓reduceIte, pure_bind,
      outcome_bind, outcome_currentStep found]
    rfl
  intro now same
  exact (passed now same).of_outcome_eq (by rw [bind_pure])
    (splitting.outcome_chainFrom_joint index same)

/-- Wherever a chain is cut, its second part may stand in one step. -/
theorem alike_chainFrom (splitting : Splitting plain call body first second joint start)
    (front : List StepRef) (listed : front ⊆ first) (index : Nat) :
    Alike (SameSteps (first ++ second ++ [joint]) start.beforeCalls)
      (Composed call (SameSteps (first ++ second ++ [joint]) start.beforeCalls))
      (chainFrom (.standard call) (front ++ second) index)
      (chainFrom (.standard call) (front ++ [joint]) index) := by
  induction front generalizing index with
  | nil => exact splitting.alike_joint index
  | cons ref rest ih =>
      rw [List.cons_subset] at listed
      exact alike_chainFrom_cons (sameSteps_ignoresTargets _ _) splitting.keeps
        (fun _ same step found =>
          splitting.draws (List.mem_append_left _ listed.1) same step found)
        (by simp [splitting.nonempty]) (ih listed.2 (index + 1))

/-- Splitting a chain changes nothing but the numbers of steps in errors. From each state with these
steps, chaining the two parts as one and chaining the first part with the joint step end in one
state and so with one log of calls. Both fail, with one error up to those numbers, or both give one
value, or else deferred lists that do the same whenever they are forced. -/
theorem alike_chainSteps (splitting : Splitting plain call body first second joint start) :
    Alike (SameSteps (first ++ second ++ [joint]) start.beforeCalls)
      (Composed call (SameSteps (first ++ second ++ [joint]) start.beforeCalls))
      (chainSteps (.standard call) (first ++ second))
      (chainSteps (.standard call) (first ++ [joint])) := by
  intro now same
  have bare : ∀ ref ∈ first ++ second.dropLast,
      ∃ step, now.step? ref = some step ∧ step.hasBlock = false := by
    intro ref member
    obtain ⟨step, present, unblocked⟩ := splitting.bare ref member
    refine ⟨step, (same ref ?_).trans present, unblocked⟩
    rcases List.mem_append.mp member with front | back
    · simp [front]
    · simp [List.dropLast_subset _ back]
  have passes : (checkStructure (first ++ second)).outcome now = (.ok (), now) := by
    refine outcome_checkStructure_of_bare (by simp [splitting.nonempty]) ?_
    rwa [List.dropLast_append_of_ne_nil splitting.nonempty]
  have passesSecond : (checkStructure (first ++ [joint])).outcome now = (.ok (), now) := by
    refine outcome_checkStructure_of_bare (by simp) ?_
    rw [List.dropLast_concat]
    exact fun ref member => bare ref (List.mem_append_left _ member)
  refine (splitting.alike_chainFrom first (List.Subset.refl _) 0 now same).of_outcome_eq ?_ ?_
  · rw [chainSteps_eq_check, outcome_bind, passes]
  · rw [chainSteps_eq_check, outcome_bind, passesSecond]

/-- A filtered step and a step with a block, which share a target, and a step whose function chains
the second of them. Sources are the function `some true`, and `some false` answers all else. -/
def cutPair : World (Option Bool) Unit :=
  let filtered : Step (Option Bool) :=
    { ownTarget := .slot "x" none
      source := .function (some true)
      qualifiers := [.filter (.function (some false))] }
  let concluded : Step (Option Bool) :=
    { ownTarget := .slot "x" none, source := .function (some true),
      block := .function (some false) }
  { contexts := [[filtered, concluded, { ownTarget := .discard, source := .function none }]]
    client := () }

def drawingCall : Option Bool → Option (Value (Option Bool)) →
    Action (Option Bool) Unit (Value (Option Bool)) :=
  fun body _ =>
    return if body = some true then .listMonad none false [.int 1, .int 2] else .bool true

def cutCall : Option Bool → Option (Value (Option Bool)) →
    Action (Option Bool) (Unit × CallLog (Option Bool)) (Value (Option Bool))
  | none, _ => chainSteps (.standard (loggingCalls drawingCall)) [⟨0, 1⟩]
  | some other, argument => loggingCalls drawingCall (some other) argument

theorem splitting_cutPair :
    Splitting drawingCall cutCall none [⟨0, 0⟩] [⟨0, 1⟩] ⟨0, 2⟩ cutPair where
  logs other distinct := by
    cases other with
    | none => exact absurd rfl distinct
    | some other => rfl
  chains now same := by
    have found : now.step? ⟨0, 1⟩ = some
        { ownTarget := .slot "x" none, source := .function (some true)
          block := .function (some false) } := same ⟨0, 1⟩ (by simp)
    let source : Callback (Option Bool) := .function (some true)
    have drawn : (source.call (.standard cutCall) none).outcome now =
        (.ok (.listMonad none false [.int 1, .int 2]), _) := rfl
    have drawnLogged : (source.call (.standard (loggingCalls drawingCall)) none).outcome now =
        (.ok (.listMonad none false [.int 1, .int 2]), _) := rfl
    have chained := outcome_chainFrom_eager found drawn found [] 0
    have chainedLogged := outcome_chainFrom_eager found drawnLogged found [] 0
    have checked : (checkStructure [⟨0, 1⟩] :
        Action (Option Bool) (Unit × CallLog (Option Bool)) PUnit) = pure () := rfl
    rw [cutCall, chainSteps_eq_check, chainSteps_eq_check, checked, pure_bind, pure_bind, chained,
      chainedLogged]
    rfl
  joined := rfl
  nonempty := by simp
  bare ref member := by
    obtain rfl : ref = ⟨0, 0⟩ := by simpa using member
    exact ⟨_, rfl, rfl⟩
  sources ref member step found now same := by
    simp only [List.cons_append, List.nil_append, List.mem_cons, List.not_mem_nil, or_false]
      at member
    rcases member with rfl | rfl <;> cases found <;> exact Or.inl trivial
  keeps other argument := by
    have logged : ∀ body argument, Preserves
        (SameSteps ([⟨0, 0⟩] ++ [⟨0, 1⟩] ++ [⟨0, 2⟩]) cutPair.beforeCalls)
        (loggingCalls drawingCall body argument) :=
      fun body argument => Preserves.of_outcome fun _ same => same
    cases other with
    | none =>
        rw [cutCall]
        exact ordinary_chainSteps _ _ (sameSteps_ignoresTargets _ _) logged
    | some other => exact logged (some other) argument

theorem alike_chainSteps_cutPair :
    ∃ after,
      (chainSteps (.standard cutCall) [⟨0, 0⟩, ⟨0, 1⟩]).outcome cutPair.beforeCalls =
        (.ok (.listMonad none false (List.replicate 4 (.bool true))), after) ∧
      (chainSteps (.standard cutCall) [⟨0, 0⟩, ⟨0, 2⟩]).outcome cutPair.beforeCalls =
        (.ok (.listMonad none false (List.replicate 4 (.bool true))), after) ∧
      after.log.length = 9 := by
  have alike := alike_chainSteps splitting_cutPair cutPair.beforeCalls fun _ _ => rfl
  have chained : ((chainSteps (.standard cutCall) [⟨0, 0⟩, ⟨0, 1⟩]).outcome cutPair.beforeCalls).1 =
      .ok (.listMonad none false (List.replicate 4 (.bool true))) := rfl
  have made : ((chainSteps (.standard cutCall) [⟨0, 0⟩, ⟨0, 1⟩]).outcome
      cutPair.beforeCalls).2.log.length = 9 := rfl
  simp only [List.cons_append, List.nil_append] at alike
  rcases alike.exists_ends with
    ⟨value, after, other, last, first, second, composed, rfl, -⟩ |
    ⟨error, after, other, last, first, -⟩
  · rw [first] at chained made
    cases chained
    cases composed
    exact ⟨last, first, second, made⟩
  · rw [first] at chained
    cases chained

end Splitting

end Bindery
