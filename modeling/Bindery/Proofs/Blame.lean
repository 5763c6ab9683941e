import Bindery.Proofs.Fitting
import Bindery.Proofs.Preservation

set_option autoImplicit false

namespace Bindery

open Bindery.Action

variable {F σ α β : Type}

theorem ends_recordApplied (traced : Bool) (operation : Operation) (items : List (Value F))
    (world : World F σ) :
    (recordApplied traced operation items : Action F σ PUnit).Ends world (fun _ _ => True)
      fun error _ => error.kind ≠ .tupleArity := by
  cases traced <;> trivial

theorem ends_listItems (value : Value F) (world : World F σ) :
    (listItems value : Action F σ (List (Value F))).Ends world (fun _ _ => True)
      fun error _ => error.kind ≠ .tupleArity := by
  cases value with
  | listMonad number traced items => trivial
  | _ => simp [listItems, Error.kind]

theorem ends_checkBlockPlace (total : Nat) (refs : List StepRef) (index : Nat)
    (world : World F σ) :
    (checkBlockPlace total refs index).Ends world (fun _ _ => True)
      fun error _ => error.kind ≠ .tupleArity := by
  induction refs generalizing index with
  | nil => trivial
  | cons ref rest ih =>
      cases rest with
      | nil => trivial
      | cons next others =>
          rw [checkBlockPlace, currentStep, bind_assoc, ends_bind, ends_get, ends_bind]
          cases world.step? ref with
          | none => simp [Error.kind]
          | some step =>
              simp only [ends_pure]
              split
              · simp [Error.kind]
              · exact ih (index + 1)

/-- What is watched in a run. A state is fine as long as no function has given what does not fit,
and in order as long as the steps are as they are declared to be. An error is accounted for in a
state when it is known that a function raised it. Forcing is watched up to a depth. -/
structure Watch (F σ : Type) where
  depth : Nat
  fine : World F σ → Prop
  inOrder : World F σ → Prop
  accounted : Error → World F σ → Prop

namespace Watch

variable (watch : Watch F σ)

/-- Either some function gave what does not fit, or the action has such a result, or an error that
is not of arity or is accounted for. -/
def Clears (action : Action F σ α) (world : World F σ) (result : α → Prop) : Prop :=
  action.Ends world (fun value after => watch.fine after → result value)
    fun error after => watch.fine after → error.kind = .tupleArity → watch.accounted error after

/-- What is watched fits the functions: they do not bring back a state that is fine, they keep the
order, and their errors are accounted for. -/
structure Fair (call : F → Option (Value F) → Action F σ (Value F)) : Prop where
  fineIgnores : IgnoresTargets fun world => ¬ watch.fine world
  orderIgnores : IgnoresTargets watch.inOrder
  remembers : ∀ body argument, Preserves (fun world => ¬ watch.fine world) (call body argument)
  keeps : ∀ body argument, Preserves watch.inOrder (call body argument)
  accounts : ∀ body argument world, (call body argument).Ends world (fun _ _ => True)
    fun error after => watch.accounted error after

variable {watch} {call : F → Option (Value F) → Action F σ (Value F)}

theorem Clears.imp {action : Action F σ α} {world : World F σ} {stronger weaker : α → Prop}
    (clears : watch.Clears action world stronger)
    (weaken : ∀ value, stronger value → weaker value) : watch.Clears action world weaker :=
  Ends.imp clears fun value _ found fine => weaken value (found fine)

theorem clears_of_ends {action : Action F σ α} {world : World F σ} {result : α → Prop}
    (ends : action.Ends world (fun value _ => result value)
      fun error _ => error.kind ≠ .tupleArity) : watch.Clears action world result :=
  ends.mono (fun _ _ found _ => found) fun _ _ other _ same => (other same).elim

theorem clears_pure {value : α} {world : World F σ} {result : α → Prop} (found : result value) :
    watch.Clears (pure value) world result :=
  fun _ => found

theorem clears_throw {error : Error} {world : World F σ} {result : α → Prop}
    (other : error.kind ≠ .tupleArity) : watch.Clears (throw error) world result :=
  fun _ same => (other same).elim

/-- What comes after is looked at only from states that are in order, and with what fits. -/
theorem Clears.bind (fair : watch.Fair call) {action : Action F σ α} {next : α → Action F σ β}
    {world : World F σ} (inOrder : watch.inOrder world) {middle : α → Prop} {result : β → Prop}
    (ordinary : Ordinary call action) (ordinaryNext : ∀ value, Ordinary call (next value))
    (first : watch.Clears action world middle)
    (rest : ∀ value after, watch.inOrder after → middle value →
      watch.Clears (next value) after result) :
    watch.Clears (action >>= next) world result := by
  have kept := ordinary _ fair.orderIgnores fair.keeps world inOrder
  unfold Clears
  rw [ends_bind]
  refine (first.and kept).mono (fun value after found => ?_) fun _ _ found => found.1
  by_cases fine : watch.fine after
  · exact rest value after found.2 (found.1 fine)
  · have spoiled := ordinaryNext value _ fair.fineIgnores fair.remembers after fine
    exact spoiled.mono (fun _ _ unfine fine => absurd fine unfine)
      fun _ _ unfine fine => absurd fine unfine

theorem clears_call (fair : watch.Fair call) (callback : Callback F)
    (argument : Option (Value F)) (world : World F σ) :
    watch.Clears (callback.call (.standard call) argument) world fun _ => True := by
  cases callback with
  | function body =>
      exact (fair.accounts body argument world).mono (fun _ _ _ _ => trivial)
        fun _ _ accounted _ _ => accounted
  | object type => exact clears_throw (by simp [Error.kind])

section Loops

variable (fair : watch.Fair call) {run : ItemAction F σ}
  (ordinary : ∀ item, Ordinary call (run item)) {held : Value F → Prop}
include fair ordinary

theorem clears_collect {made : Value F → Prop}
    (each : ∀ item, held item → ∀ world, watch.inOrder world → watch.Clears (run item) world made)
    {items : List (Value F)} (all : ∀ item ∈ items, held item) {world : World F σ}
    (inOrder : watch.inOrder world) :
    watch.Clears (collect run items) world fun values => ∀ value ∈ values, made value := by
  induction items generalizing world with
  | nil => exact clears_pure (by simp)
  | cons item rest ih =>
      rw [List.forall_mem_cons] at all
      refine Clears.bind fair inOrder (ordinary item)
        (fun _ => (ordinary_collect ordinary rest).bind fun _ => ordinary_pure _)
        (each item all.1 world inOrder) fun value after kept found => ?_
      refine Clears.bind fair kept (ordinary_collect ordinary rest) (fun _ => ordinary_pure _)
        (ih all.2 kept) fun values _ _ others => ?_
      exact clears_pure (List.forall_mem_cons.mpr ⟨found, others⟩)

theorem clears_retain
    (each : ∀ item, held item → ∀ world, watch.inOrder world →
      watch.Clears (run item) world fun _ => True)
    {items : List (Value F)} (all : ∀ item ∈ items, held item) {world : World F σ}
    (inOrder : watch.inOrder world) :
    watch.Clears (retain run items) world fun kept => ∀ item ∈ kept, held item := by
  induction items generalizing world with
  | nil => exact clears_pure (by simp)
  | cons item rest ih =>
      rw [List.forall_mem_cons] at all
      refine Clears.bind fair inOrder (ordinary item)
        (fun _ => (ordinary_retain ordinary rest).bind fun _ => ordinary_pure _)
        (each item all.1 world inOrder) fun verdict after kept _ => ?_
      refine Clears.bind fair kept (ordinary_retain ordinary rest) (fun _ => ordinary_pure _)
        (ih all.2 kept) fun values _ _ others => ?_
      refine clears_pure ?_
      split
      · exact List.forall_mem_cons.mpr ⟨all.1, others⟩
      · exact others

theorem clears_gather {itemsOf : Value F → Action F σ (List (Value F))}
    (ordinaryItems : ∀ value, Ordinary call (itemsOf value)) {made : Value F → Prop}
    (each : ∀ item, held item → ∀ world, watch.inOrder world → watch.Clears (run item) world made)
    (eachItems : ∀ value, made value → ∀ world, watch.inOrder world →
      watch.Clears (itemsOf value) world fun _ => True)
    {items : List (Value F)} (all : ∀ item ∈ items, held item) {world : World F σ}
    (inOrder : watch.inOrder world) :
    watch.Clears (gather itemsOf run items) world fun _ => True := by
  induction items generalizing world with
  | nil => exact clears_pure trivial
  | cons item rest ih =>
      rw [List.forall_mem_cons] at all
      have ordinaryRest := ordinary_gather ordinary ordinaryItems rest
      refine Clears.bind fair inOrder (ordinary item)
        (fun value => (ordinaryItems value).bind fun _ => ordinaryRest.bind fun _ =>
          ordinary_pure _)
        (each item all.1 world inOrder) fun value after kept found => ?_
      refine Clears.bind fair kept (ordinaryItems value)
        (fun _ => ordinaryRest.bind fun _ => ordinary_pure _)
        (eachItems value found after kept) fun _ reached still _ => ?_
      exact Clears.bind fair still ordinaryRest (fun _ => ordinary_pure _) (ih all.2 still)
        fun _ _ _ _ => clears_pure trivial

end Loops

theorem clears_settleAndDeposit {target : Target} {item : Value F} (fits : target.Fits item)
    (world : World F σ) : watch.Clears (settleAndDeposit target item) world target.Fits :=
  clears_of_ends (ends_settleAndDeposit_of_fits target item fits world)

section Items

variable (fair : watch.Fair call) {target : Target} {item : Value F} (fits : target.Fits item)
  {world : World F σ} (inOrder : watch.inOrder world)
include fair fits inOrder

theorem clears_testItem (predicate : Callback F) :
    watch.Clears (testItem (.standard call) target predicate item) world fun _ => True := by
  rw [testItem]
  exact Clears.bind fair inOrder (ordinary_deposit target item) (fun _ => ordinary_call predicate _)
    (clears_of_ends (ends_deposit_of_fits target item fits world))
    fun _ after _ _ => clears_call fair predicate _ after

theorem clears_pairItem {added : Target} {thunk : Callback F}
    (defines : ∀ world, watch.inOrder world →
      watch.Clears (thunk.call (.standard call) none) world added.Fits) :
    watch.Clears (pairItem (.standard call) target added thunk item) world
      (Target.tuple [target, added]).Fits := by
  rw [pairItem]
  refine Clears.bind fair inOrder (ordinary_settleAndDeposit target item)
    (fun _ => (ordinary_call thunk none).bind fun defined =>
      (ordinary_settle added defined).bind fun _ => ordinary_pure _)
    (clears_settleAndDeposit fits world) fun settled after kept settledFits => ?_
  refine Clears.bind fair kept (ordinary_call thunk none)
    (fun defined => (ordinary_settle added defined).bind fun _ => ordinary_pure _)
    (defines after kept) fun defined reached still definedFits => ?_
  refine Clears.bind fair still (ordinary_settle added defined) (fun _ => ordinary_pure _)
    (clears_of_ends (ends_settle_of_fits added defined definedFits reached))
    fun value _ _ valueFits => ?_
  exact clears_pure ((Target.takes_pair _ _ _ _ _).mpr ⟨settledFits, valueFits⟩)

theorem clears_concludeItem (block : Callback F) :
    watch.Clears (concludeItem (.standard call) target block item) world fun _ => True := by
  rw [concludeItem]
  exact Clears.bind fair inOrder (ordinary_settleAndDeposit target item)
    (fun _ => ordinary_call block _) (clears_settleAndDeposit fits world)
    fun _ after _ _ => clears_call fair block _ after

end Items

/-- The values that a monad holds are such, now or whenever it is forced within the depth. It is a
list, an optional value or a deferred list. -/
def Holds (watch : Watch F σ) (call : F → Option (Value F) → Action F σ (Value F))
    (such : Value F → Prop) : Value F → Prop
  | .listMonad _ _ items => ∀ item ∈ items, such item
  | .just _ content => such content
  | .nothing _ => True
  | .deferred number items stages => ∀ fuel < watch.depth, ∀ world, watch.inOrder world →
      watch.Clears (Value.force (.standard call) fuel (.deferred number items stages)) world
        fun forced => ∀ item ∈ forced, such item
  | _ => False

/-- Whenever a value is forced within the depth, an error of arity is accounted for. -/
def Safe (watch : Watch F σ) (call : F → Option (Value F) → Action F σ (Value F))
    (value : Value F) : Prop :=
  ∀ fuel < watch.depth, ∀ world, watch.inOrder world →
    watch.Clears (Value.force (.standard call) fuel value) world fun _ => True

theorem safe_of_holds (such : Value F → Prop) {value : Value F}
    (holds : watch.Holds call such value) : watch.Safe call value := by
  intro fuel within world inOrder
  cases value with
  | listMonad number traced items =>
      cases fuel <;> exact clears_pure trivial
  | just number content =>
      cases fuel <;> exact clears_throw (by simp [Error.kind])
  | nothing number =>
      cases fuel <;> exact clears_throw (by simp [Error.kind])
  | deferred number items stages =>
      exact (holds fuel within world inOrder).imp fun _ _ => trivial
  | _ => exact holds.elim

theorem clears_force_append (fair : watch.Fair call) {number other : Option Nat}
    {items : List (Value F)} {stages : List (Stage F)} (stage : Stage F)
    {such : Value F → Prop} {result : List (Value F) → Prop}
    (holds : watch.Holds call such (.deferred number items stages))
    (added : ∀ fuel < watch.depth, ∀ reached, (∀ item ∈ reached, such item) →
      ∀ world, watch.inOrder world →
        watch.Clears (Value.runStage (.standard call) (Value.force (.standard call) fuel) reached
          stage) world result)
    {fuel : Nat} (within : fuel < watch.depth) {world : World F σ} (inOrder : watch.inOrder world) :
    watch.Clears (Value.force (.standard call) fuel (.deferred other items (stages ++ [stage])))
      world result := by
  cases fuel with
  | zero => exact clears_throw (by simp [Error.kind])
  | succ fuel =>
      have ordinaryForce : ∀ value, Ordinary call (Value.force (.standard call) fuel value) :=
        Value.ordinary_force fuel
      simp only [Value.force, Value.runStages_append]
      refine Clears.bind fair inOrder (Value.ordinary_runStages ordinaryForce items stages)
        (fun reached => Value.ordinary_runStages ordinaryForce reached [stage])
        (holds (fuel + 1) within world inOrder) fun reached after kept all => ?_
      simpa [Value.runStages] using added fuel (Nat.lt_of_succ_lt within) reached all after kept

section Operations

variable (fair : watch.Fair call) (continuation : Continuation F) {run : ItemAction F σ}
  (same : run = fun item => continuation.apply (.standard call) item) {such : Value F → Prop}
  {value : Value F} {world : World F σ} (inOrder : watch.inOrder world)
  (holds : watch.Holds call such value)
include fair same inOrder holds

theorem clears_map {made : Value F → Prop}
    (each : ∀ item, such item → ∀ world, watch.inOrder world →
      watch.Clears (continuation.apply (.standard call) item) world made) :
    watch.Clears (Value.map continuation run value) world (watch.Holds call made) := by
  subst same
  have ordinary : ∀ item, Ordinary call (continuation.apply (.standard call) item) :=
    ordinary_apply continuation
  cases value with
  | listMonad number traced items =>
      refine Clears.bind fair inOrder (ordinary_recordApplied _ _ _)
        (fun _ => (ordinary_collect ordinary items).bind fun _ => ordinary_pure _)
        (clears_of_ends (ends_recordApplied _ _ _ world)) fun _ after kept _ => ?_
      exact Clears.bind fair kept (ordinary_collect ordinary items) (fun _ => ordinary_pure _)
        (clears_collect fair ordinary each holds kept) fun values _ _ all => clears_pure all
  | just number content =>
      exact Clears.bind fair inOrder (ordinary content) (fun _ => ordinary_pure _)
        (each content holds world inOrder) fun result _ _ found => clears_pure found
  | nothing number => exact clears_pure trivial
  | deferred number items stages =>
      refine clears_pure fun fuel within world inOrder => ?_
      exact clears_force_append fair ⟨.map, continuation⟩ holds
        (fun _ _ reached all world inOrder => clears_collect fair ordinary each all inOrder)
        within inOrder
  | _ => exact holds.elim

theorem clears_filter
    (each : ∀ item, such item → ∀ world, watch.inOrder world →
      watch.Clears (continuation.apply (.standard call) item) world fun _ => True) :
    watch.Clears (Value.filter continuation run value) world (watch.Holds call such) := by
  subst same
  have ordinary : ∀ item, Ordinary call (continuation.apply (.standard call) item) :=
    ordinary_apply continuation
  cases value with
  | listMonad number traced items =>
      refine Clears.bind fair inOrder (ordinary_recordApplied _ _ _)
        (fun _ => (ordinary_retain ordinary items).bind fun _ => ordinary_pure _)
        (clears_of_ends (ends_recordApplied _ _ _ world)) fun _ after kept _ => ?_
      exact Clears.bind fair kept (ordinary_retain ordinary items) (fun _ => ordinary_pure _)
        (clears_retain fair ordinary each holds kept) fun values _ _ all => clears_pure all
  | just number content =>
      refine Clears.bind fair inOrder (ordinary content) (fun _ => ordinary_pure _)
        (each content holds world inOrder) fun verdict _ _ _ => clears_pure ?_
      split
      · exact holds
      · trivial
  | nothing number => exact clears_pure trivial
  | deferred number items stages =>
      refine clears_pure fun fuel within world inOrder => ?_
      exact clears_force_append fair ⟨.filter, continuation⟩ holds
        (fun _ _ reached all world inOrder => clears_retain fair ordinary each all inOrder)
        within inOrder
  | _ => exact holds.elim

theorem clears_flatMap
    (each : ∀ item, such item → ∀ world, watch.inOrder world →
      watch.Clears (continuation.apply (.standard call) item) world (watch.Safe call)) :
    watch.Clears (Value.flatMap continuation run value) world (watch.Safe call) := by
  subst same
  have ordinary : ∀ item, Ordinary call (continuation.apply (.standard call) item) :=
    ordinary_apply continuation
  cases value with
  | listMonad number traced items =>
      have ordinaryGather := ordinary_gather ordinary ordinary_listItems items
      refine Clears.bind fair inOrder (ordinary_recordApplied _ _ _)
        (fun _ => ordinaryGather.bind fun _ => ordinary_pure _)
        (clears_of_ends (ends_recordApplied _ _ _ world)) fun _ after kept _ => ?_
      refine Clears.bind fair kept ordinaryGather (fun _ => ordinary_pure _)
        (clears_gather fair ordinary ordinary_listItems each (fun result _ world _ => ?_) holds
          kept) fun values _ _ _ => clears_pure ?_
      · exact clears_of_ends (ends_listItems result world)
      · exact safe_of_holds (fun _ => True) fun _ _ => trivial
  | just number content => exact each content holds world inOrder
  | nothing number => exact clears_pure (safe_of_holds (fun _ => True) trivial)
  | deferred number items stages =>
      refine clears_pure fun fuel within world inOrder => ?_
      exact clears_force_append fair ⟨.flatMap, continuation⟩ holds
        (fun fuel within reached all world inOrder =>
          clears_gather fair ordinary (Value.ordinary_force fuel) each
            (fun result safe world inOrder => safe fuel within world inOrder) all inOrder)
        within inOrder
  | _ => exact holds.elim

end Operations

theorem clears_requireMonadLike (index : Int) (value : Value F) (world : World F σ) :
    watch.Clears (requireMonadLike index value) world fun _ => True := by
  unfold requireMonadLike
  split
  · exact clears_pure trivial
  · exact clears_throw (by simp [Error.kind])

section Qualifiers

variable (fair : watch.Fair call) {target : Target} {value : Value F} {world : World F σ}
  (inOrder : watch.inOrder world) (holds : watch.Holds call target.Fits value)
include fair inOrder holds

theorem clears_applyFilter (index : Nat) (predicate : Callback F) :
    watch.Clears (applyFilter (.standard call) index target predicate value) world
      (watch.Holds call target.Fits) := by
  have tested : ∀ item, Ordinary call (testItem (.standard call) target predicate item) :=
    ordinary_testItem target predicate
  have filtered : ∀ {value : Value F} {world : World F σ}, watch.inOrder world →
      watch.Holds call target.Fits value →
        watch.Clears ((Meaning.standard call).filter (.test target predicate)
          (testItem (.standard call) target predicate) value) world
          (watch.Holds call target.Fits) := fun inOrder holds =>
    clears_filter fair (.test target predicate) rfl inOrder holds fun item fits world inOrder =>
      clears_testItem fair fits inOrder predicate
  refine Clears.bind fair inOrder (ordinary_requireMonadLike _ _) (fun _ => Ordinary.ite ?_ ?_)
    (clears_requireMonadLike _ _ world) fun _ after kept _ => ?_
  · exact (Value.ordinary_map _ (ordinary_settle target) value).bind fun settled =>
      (ordinary_requireMonadLike _ _).bind fun _ => Value.ordinary_filter _ tested settled
  · exact Value.ordinary_filter _ tested value
  · split
    · refine Clears.bind fair kept (Value.ordinary_map _ (ordinary_settle target) value)
        (fun settled => (ordinary_requireMonadLike _ _).bind fun _ =>
          Value.ordinary_filter _ tested settled)
        (clears_map fair (.settle target) rfl kept holds fun item fits world _ =>
          clears_of_ends (ends_settle_of_fits target item fits world))
        fun settled reached still settledHolds => ?_
      exact Clears.bind fair still (ordinary_requireMonadLike _ _)
        (fun _ => Value.ordinary_filter _ tested settled) (clears_requireMonadLike _ _ reached)
        fun _ _ inOrder _ => filtered inOrder settledHolds
    · exact filtered kept holds

theorem clears_applyDefinition (index : Nat) {added : Target} {thunk : Callback F}
    (defines : ∀ world, watch.inOrder world →
      watch.Clears (thunk.call (.standard call) none) world added.Fits) :
    watch.Clears (applyDefinition (.standard call) index target added thunk value) world
      (watch.Holds call (Target.tuple [target, added]).Fits) :=
  Clears.bind fair inOrder (ordinary_requireMonadLike _ _)
    (fun _ => Value.ordinary_map _ (ordinary_pairItem target added thunk) value)
    (clears_requireMonadLike _ _ world) fun _ _ kept _ =>
      clears_map fair (.pair target added thunk) rfl kept holds fun _ fits _ inOrder =>
        clears_pairItem fair fits inOrder defines

end Qualifiers

/-- The target of a step and the values of its source stay matched through all qualifiers. -/
theorem clears_applyQualifiers (fair : watch.Fair call) (index : Nat) {target : Target}
    {qualifiers : List (Qualifier F)}
    (defines : ∀ added thunk, .define added thunk ∈ qualifiers → ∀ world, watch.inOrder world →
      watch.Clears (thunk.call (.standard call) none) world added.Fits)
    {value : Value F} (holds : watch.Holds call target.Fits value) {world : World F σ}
    (inOrder : watch.inOrder world) :
    watch.Clears (applyQualifiers (.standard call) index target qualifiers value) world
      (watch.Holds call (qualifiers.foldl Qualifier.retarget target).Fits) := by
  induction qualifiers generalizing target value world with
  | nil => exact clears_pure holds
  | cons qualifier rest ih =>
      have later : ∀ added thunk, .define added thunk ∈ rest → ∀ world, watch.inOrder world →
          watch.Clears (thunk.call (.standard call) none) world added.Fits :=
        fun added thunk member => defines added thunk (List.mem_cons_of_mem _ member)
      cases qualifier with
      | filter predicate =>
          exact Clears.bind fair inOrder (ordinary_applyFilter index target predicate value)
            (fun kept => ordinary_applyQualifiers index target rest kept)
            (clears_applyFilter fair inOrder holds index predicate)
            fun kept after still found => ih later found still
      | define added thunk =>
          exact Clears.bind fair inOrder (ordinary_applyDefinition index target added thunk value)
            (fun paired => ordinary_applyQualifiers index _ rest paired)
            (clears_applyDefinition fair inOrder holds index
              (defines added thunk List.mem_cons_self))
            fun paired after still found => ih later found still

/-- A step as it is declared: its source draws what fits its own target, and each of its definitions
gives what fits. -/
structure Declared (watch : Watch F σ) (call : F → Option (Value F) → Action F σ (Value F))
    (step : Step F) : Prop where
  draws : ∀ world, watch.inOrder world →
    watch.Clears (step.source.call (.standard call) none) world
      (watch.Holds call step.ownTarget.Fits)
  defines : ∀ added thunk, .define added thunk ∈ step.qualifiers → ∀ world, watch.inOrder world →
    watch.Clears (thunk.call (.standard call) none) world added.Fits

theorem clears_generate (fair : watch.Fair call) {step : Step F}
    (declared : watch.Declared call step) (index : Nat) {world : World F σ}
    (inOrder : watch.inOrder world) :
    watch.Clears (step.generate (.standard call) index) world
      (watch.Holds call step.target.Fits) :=
  Clears.bind fair inOrder (ordinary_call step.source none)
    (fun value => ordinary_applyQualifiers index step.ownTarget step.qualifiers value)
    (declared.draws world inOrder) fun _ _ kept holds =>
      clears_applyQualifiers fair index declared.defines holds kept

theorem clears_currentStep
    (declared : ∀ world, watch.inOrder world → ∀ ref step, world.step? ref = some step →
      watch.Declared call step) (ref : StepRef) {world : World F σ}
    (inOrder : watch.inOrder world) :
    watch.Clears (currentStep ref) world (watch.Declared call) := by
  unfold currentStep Clears
  rw [ends_bind, ends_get]
  cases found : world.step? ref with
  | none => exact clears_throw (by simp [Error.kind])
  | some step => exact clears_pure (declared world inOrder ref step found)

/-- What is done with the value of a step clears what is watched if chaining the steps that are left
does. The block may have been attached while the value was made. -/
theorem clears_finishValue (fair : watch.Fair call) {rest : List StepRef}
    (chained : ∀ index world, watch.inOrder world →
      watch.Clears (chainFrom (.standard call) rest index) world (watch.Safe call))
    (step now : Step F) (index : Nat) {value : Value F}
    (holds : watch.Holds call step.target.Fits value) {world : World F σ}
    (inOrder : watch.inOrder world) :
    watch.Clears (finishValue (.standard call) step now rest index value) world
      (watch.Safe call) := by
  unfold finishValue
  split
  · have concluded := clears_map fair (.conclude step.target now.block) rfl inOrder holds
      fun item fits world inOrder => clears_concludeItem fair fits inOrder now.block
    exact concluded.imp fun _ => safe_of_holds _
  · cases rest with
    | nil => exact clears_pure (safe_of_holds _ holds)
    | cons next others =>
        refine clears_flatMap fair (.proceed step.target (next :: others) (index + 1)) rfl inOrder
          holds fun item fits world inOrder => ?_
        exact Clears.bind fair inOrder (ordinary_settleAndDeposit step.target item)
          (fun _ => ordinary_chainFrom _ _) (clears_settleAndDeposit fits world)
          fun _ after kept _ => chained (index + 1) after kept

/-- Chaining steps from any place on: any error of arity is accounted for, then and whenever the
result is forced. -/
theorem clears_chainFrom (fair : watch.Fair call)
    (declared : ∀ world, watch.inOrder world → ∀ ref step, world.step? ref = some step →
      watch.Declared call step) (refs : List StepRef) (index : Nat) {world : World F σ}
    (inOrder : watch.inOrder world) :
    watch.Clears (chainFrom (.standard call) refs index) world (watch.Safe call) := by
  -- The induction is on the references that are left. The steps that they lead to may change at any
  -- time, so what is known of a step is taken from the order of the state that it is found in.
  induction refs generalizing index world with
  | nil => exact clears_throw (by simp [Error.kind])
  | cons ref rest ih =>
      rw [chainFrom_cons]
      have ordinaryFinish : ∀ (step : Step F) (value : Value F), Ordinary call
          (currentStep ref >>= fun now =>
            finishValue (.standard call) step now rest index value) :=
        fun step value => (ordinary_currentStep ref).bind fun now =>
          ordinary_finishValue step now rest index value
      have ordinaryCheck : ∀ (step : Step F) (value : Value F), Ordinary call
          (requireMonadLike index value >>= fun _ => currentStep ref >>= fun now =>
            finishValue (.standard call) step now rest index value) :=
        fun step value => (ordinary_requireMonadLike _ _).bind fun _ => ordinaryFinish step value
      refine Clears.bind fair inOrder (ordinary_currentStep ref)
        (fun step => (ordinary_generate _ step).bind (ordinaryCheck step))
        (clears_currentStep declared ref inOrder) fun step found kept declaredStep => ?_
      refine Clears.bind fair kept (ordinary_generate _ step) (ordinaryCheck step)
        (clears_generate fair declaredStep _ kept) fun value generated still holds => ?_
      refine Clears.bind fair still (ordinary_requireMonadLike _ _)
        (fun _ => ordinaryFinish step value) (clears_requireMonadLike _ _ generated)
        fun _ checked again _ => ?_
      exact Clears.bind fair again (ordinary_currentStep ref)
        (fun now => ordinary_finishValue step now rest index value)
        (clears_currentStep declared ref again) fun now last inOrder _ =>
          clears_finishValue fair (fun index world => ih index) step now index holds inOrder

theorem clears_checkStructure (refs : List StepRef) (world : World F σ) :
    watch.Clears (checkStructure refs) world fun _ => True := by
  cases refs with
  | nil => exact clears_throw (by simp [Error.kind])
  | cons ref rest => exact clears_of_ends (ends_checkBlockPlace _ (ref :: rest) 0 world)

theorem clears_chainSteps (fair : watch.Fair call)
    (declared : ∀ world, watch.inOrder world → ∀ ref step, world.step? ref = some step →
      watch.Declared call step) (refs : List StepRef) {world : World F σ}
    (inOrder : watch.inOrder world) :
    watch.Clears (chainSteps (.standard call) refs) world (watch.Safe call) := by
  rw [chainSteps_eq_check]
  exact Clears.bind fair inOrder (ordinary_checkStructure refs) (fun _ => ordinary_chainFrom refs 0)
    (clears_checkStructure refs world) fun _ _ kept _ => clears_chainFrom fair declared refs 0 kept

end Watch

end Bindery
