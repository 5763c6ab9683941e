import Bindery.Context
import Bindery.Proofs.Entering

set_option autoImplicit false

namespace Bindery

open Bindery.Action

variable {F σ α : Type}

def Meaning.operation (meaning : Meaning F σ) :
    Operation → Continuation F → ItemAction F σ → ItemAction F σ
  | .map => meaning.map
  | .filter => meaning.filter
  | .flatMap => meaning.flatMap
  | .unit => fun _ _ value => return value

/-- Call the operation of a stage on an object, with the work of the stage. -/
def Stage.operate (meaning : Meaning F σ) (stage : Stage F) (object : Value F) :
    Action F σ (Value F) :=
  meaning.operation stage.operation stage.continuation
    (fun item => stage.continuation.apply meaning item) object

/-- Call the operations of stages, the first on an object and each other one on what the one before
it returned. Each of these is inspected first. -/
def operateAll (meaning : Meaning F σ) (index : Nat) :
    List (Stage F) → Value F → Action F σ (Value F)
  | [], object => return object
  | stage :: stages, object => do
      requireMonadLike index object
      let next ← stage.operate meaning object
      operateAll meaning index stages next

theorem operateAll_append (meaning : Meaning F σ) (index : Nat) (first second : List (Stage F))
    (object : Value F) :
    operateAll meaning index (first ++ second) object =
      operateAll meaning index first object >>= operateAll meaning index second := by
  induction first generalizing object with
  | nil => simp [operateAll]
  | cons stage rest ih => simp [operateAll, ih]

theorem applyFilter_eq_operateAll (meaning : Meaning F σ) (index : Nat) (target : Target)
    (predicate : Callback F) (object : Value F) :
    applyFilter meaning index target predicate object =
      operateAll meaning index (filterStages target predicate) object := by
  cases sequence : target.hasSequence <;>
    simp [applyFilter, filterStages, sequence, operateAll, Stage.operate, Meaning.operation,
      Continuation.apply]

theorem applyDefinition_eq_operateAll (meaning : Meaning F σ) (index : Nat)
    (target added : Target) (thunk : Callback F) (object : Value F) :
    applyDefinition meaning index target added thunk object =
      operateAll meaning index [⟨.map, .pair target added thunk⟩] object := by
  simp [applyDefinition, operateAll, Stage.operate, Meaning.operation, Continuation.apply]

theorem applyQualifiers_eq_operateAll (meaning : Meaning F σ) (index : Nat) (target : Target)
    (qualifiers : List (Qualifier F)) (object : Value F) :
    applyQualifiers meaning index target qualifiers object =
      operateAll meaning index (qualifierStages target qualifiers) object := by
  induction qualifiers generalizing target object with
  | nil => rfl
  | cons qualifier rest ih =>
      cases qualifier with
      | filter predicate =>
          rw [applyQualifiers, qualifierStages, operateAll_append, applyFilter_eq_operateAll]
          exact bind_congr (ih target)
      | define added thunk =>
          have split : (⟨.map, .pair target added thunk⟩ : Stage F) ::
              qualifierStages (.tuple [target, added]) rest =
                [⟨.map, .pair target added thunk⟩] ++
                  qualifierStages (.tuple [target, added]) rest := rfl
          rw [applyQualifiers, qualifierStages, split, operateAll_append,
            applyDefinition_eq_operateAll]
          exact bind_congr (ih (.tuple [target, added]))

theorem generate_eq_operateAll (meaning : Meaning F σ) (index : Nat) (step : Step F) :
    step.generate meaning index = step.source.call meaning none >>=
      operateAll meaning index (qualifierStages step.ownTarget step.qualifiers) := by
  rw [Step.generate]
  exact bind_congr (applyQualifiers_eq_operateAll meaning index step.ownTarget step.qualifiers)

theorem finishValue_eq (meaning : Meaning F σ) (step now : Step F) (rest : List StepRef)
    (index : Nat) (value : Value F) :
    finishValue meaning step now rest index value =
      match finishStages step now rest index with
      | stage :: _ => stage.operate meaning value
      | [] => pure value := by
  cases carried : now.hasBlock <;> cases rest <;>
    simp [finishValue, finishStages, carried, Stage.operate, Meaning.operation,
      Continuation.apply]

theorem requireMonadLike_bind_congr (index : Int) (object : Value F) {first second : Action F σ α}
    (same : object.isMonadLike = true → first = second) :
    (requireMonadLike index object >>= fun _ => first) =
      requireMonadLike index object >>= fun _ => second := by
  cases complete : object.isMonadLike with
  | true => rw [same complete]
  | false => simp only [requireMonadLike, complete, Bool.false_eq_true, ↓reduceIte]; rfl

theorem outcome_requireMonadLike_bind {object : Value F} (incomplete : object.isMonadLike = false)
    (index : Int) (next : PUnit → Action F σ α) (world : World F σ) :
    (requireMonadLike index object >>= next).outcome world =
      (.error (.notMonadLike index object.typeName object.lacking), world) := by
  rw [requireMonadLike, incomplete]
  rfl

/-- If the continuation goes on with steps that are left, these are steps of this context, each
numbered by its place there. -/
def Continuation.PlacedIn (context : Nat) : Continuation F → Prop
  | .proceed _ rest index => ∃ count, rest = refsFrom context index count
  | _ => True

/-- Functions do the same in two meanings, and so do the operations of objects that lack none, if
they are called with work that goes on in this context. What operations of other objects do is left
open, and so is what is done with other work. -/
structure Meaning.AgreesIn (context : Nat) (meaning other : Meaning F σ) : Prop where
  call : other.call = meaning.call
  operation : ∀ (operation : Operation) (continuation : Continuation F) (object : Value F),
    continuation.PlacedIn context → object.isMonadLike = true →
      other.operation operation continuation (fun item => continuation.apply meaning item) object =
        meaning.operation operation continuation (fun item => continuation.apply meaning item)
          object

namespace Meaning.AgreesIn

variable {context : Nat} {meaning other : Meaning F σ}

theorem callback (agrees : meaning.AgreesIn context other) (callback : Callback F)
    (argument : Option (Value F)) :
    callback.call other argument = callback.call meaning argument := by
  cases callback with
  | function body => exact congrFun (congrFun agrees.call body) argument
  | object type => rfl

/-- The work of qualifiers and of blocks of results only calls functions. -/
theorem apply_of_not_proceed (agrees : meaning.AgreesIn context other)
    {continuation : Continuation F}
    (ends : ∀ target rest index, continuation ≠ .proceed target rest index) (item : Value F) :
    continuation.apply other item = continuation.apply meaning item := by
  cases continuation with
  | test target predicate => simp only [Continuation.apply, testItem, agrees.callback]
  | settle target => rfl
  | pair previous target thunk => simp only [Continuation.apply, pairItem, agrees.callback]
  | conclude target block => simp only [Continuation.apply, concludeItem, agrees.callback]
  | proceed target rest index => exact absurd rfl (ends target rest index)

theorem operate (agrees : meaning.AgreesIn context other) {stage : Stage F}
    (placed : stage.continuation.PlacedIn context)
    (alike : ∀ item, stage.continuation.apply other item = stage.continuation.apply meaning item)
    {object : Value F} (complete : object.isMonadLike = true) :
    stage.operate other object = stage.operate meaning object := by
  have work : (fun item => stage.continuation.apply other item) =
      fun item => stage.continuation.apply meaning item := funext alike
  rw [Stage.operate, Stage.operate, work]
  exact agrees.operation stage.operation stage.continuation object placed complete

theorem operateAll (agrees : meaning.AgreesIn context other) (index : Nat)
    {stages : List (Stage F)}
    (ends : ∀ stage ∈ stages, ∀ target rest place,
      stage.continuation ≠ .proceed target rest place) (object : Value F) :
    Bindery.operateAll other index stages object =
      Bindery.operateAll meaning index stages object := by
  induction stages generalizing object with
  | nil => rfl
  | cons stage rest ih =>
      rw [List.forall_mem_cons] at ends
      have placed : stage.continuation.PlacedIn context := by
        cases same : stage.continuation with
        | proceed target refs place => exact absurd same (ends.1 target refs place)
        | _ => trivial
      rw [Bindery.operateAll, Bindery.operateAll]
      refine requireMonadLike_bind_congr index object fun complete => ?_
      rw [agrees.operate placed (agrees.apply_of_not_proceed ends.1) complete]
      exact bind_congr (ih ends.2)

end Meaning.AgreesIn

theorem not_proceed_of_mem_qualifierStages (target : Target) (qualifiers : List (Qualifier F)) :
    ∀ stage ∈ qualifierStages target qualifiers, ∀ target rest place,
      stage.continuation ≠ .proceed target rest place := by
  induction qualifiers generalizing target with
  | nil => simp [qualifierStages]
  | cons qualifier rest ih =>
      cases qualifier with
      | filter predicate =>
          rw [qualifierStages, List.forall_mem_append]
          refine ⟨?_, ih target⟩
          rw [filterStages]
          split <;> simp
      | define added thunk =>
          rw [qualifierStages, List.forall_mem_cons]
          exact ⟨by simp, ih (.tuple [target, added])⟩

variable {context : Nat} {meaning other : Meaning F σ}

theorem Meaning.AgreesIn.generate (agrees : meaning.AgreesIn context other) (index : Nat)
    (step : Step F) : step.generate other index = step.generate meaning index := by
  rw [generate_eq_operateAll, generate_eq_operateAll, agrees.callback]
  exact bind_congr (agrees.operateAll index
    (not_proceed_of_mem_qualifierStages step.ownTarget step.qualifiers))

theorem Meaning.AgreesIn.finishValue (agrees : meaning.AgreesIn context other)
    (step now : Step F) {index count : Nat} {value : Value F} (complete : value.isMonadLike = true)
    (proceeds : ∀ item,
      Continuation.apply other item
          (.proceed step.target (refsFrom context (index + 1) count) (index + 1)) =
        Continuation.apply meaning item
          (.proceed step.target (refsFrom context (index + 1) count) (index + 1))) :
    Bindery.finishValue other step now (refsFrom context (index + 1) count) index value =
      Bindery.finishValue meaning step now (refsFrom context (index + 1) count) index value := by
  have alike : ∀ stage ∈ finishStages step now (refsFrom context (index + 1) count) index,
      stage.continuation.PlacedIn context ∧
        ∀ item, stage.continuation.apply other item = stage.continuation.apply meaning item := by
    intro stage member
    rw [finishStages.eq_def] at member
    split at member
    · rw [List.mem_singleton.mp member]
      exact ⟨trivial, agrees.apply_of_not_proceed (by simp)⟩
    · cases count with
      | zero => simp [refsFrom] at member
      | succ count =>
          rw [refsFrom_succ] at member proceeds
          rw [List.mem_singleton.mp member]
          exact ⟨⟨count + 1, (refsFrom_succ context (index + 1) count).symm⟩, proceeds⟩
  rw [finishValue_eq, finishValue_eq]
  cases listed : finishStages step now (refsFrom context (index + 1) count) index with
  | nil => rfl
  | cons stage stages =>
      obtain ⟨placed, same⟩ := alike stage (by simp [listed])
      exact agrees.operate placed same complete

theorem Meaning.AgreesIn.chainFrom (agrees : meaning.AgreesIn context other)
    (count index : Nat) :
    Bindery.chainFrom other (refsFrom context index count) index =
      Bindery.chainFrom meaning (refsFrom context index count) index := by
  induction count generalizing index with
  | zero => rfl
  | succ count ih =>
      rw [refsFrom_succ, chainFrom_cons, chainFrom_cons]
      refine bind_congr fun step => ?_
      rw [agrees.generate]
      refine bind_congr fun value => requireMonadLike_bind_congr index value fun complete =>
        bind_congr fun now => agrees.finishValue step now complete ?_
      intro item
      rw [Continuation.apply, Continuation.apply, ih (index + 1)]

theorem Meaning.AgreesIn.chainSteps (agrees : meaning.AgreesIn context other) (count : Nat) :
    Bindery.chainSteps other (refsFrom context 0 count) =
      Bindery.chainSteps meaning (refsFrom context 0 count) := by
  rw [chainSteps_eq_check, chainSteps_eq_check, agrees.chainFrom]

theorem Meaning.AgreesIn.apply (agrees : meaning.AgreesIn context other)
    {continuation : Continuation F} (placed : continuation.PlacedIn context) (item : Value F) :
    continuation.apply other item = continuation.apply meaning item := by
  cases continuation with
  | proceed target rest index =>
      obtain ⟨count, same⟩ := placed
      rw [Continuation.apply, Continuation.apply, same, agrees.chainFrom]
  | _ => exact agrees.apply_of_not_proceed (by simp) item

/-- The step that a reference leads to comes to an object that lacks an operation. Its source
returns the object, or the last of those operations does that are called for its first qualifiers.
-/
structure ComesToIncomplete (meaning : Meaning F σ) (ref : StepRef) (object : Value F)
    (world after : World F σ) : Prop where
  returned : ∃ (step : Step F) (first second : List (Stage F)), world.step? ref = some step ∧
    qualifierStages step.ownTarget step.qualifiers = first ++ second ∧
    (step.source.call meaning none >>= operateAll meaning ref.position first).outcome world =
      (.ok object, after)
  incomplete : object.isMonadLike = false

/-- An object of a step that lacks an operation ends the chain of that step, in the state in which
the object was returned. -/
theorem ComesToIncomplete.outcome_chainFrom {place : Nat} {object : Value F}
    {world after : World F σ}
    (comes : ComesToIncomplete meaning ⟨context, place⟩ object world after) (rest : List StepRef) :
    (chainFrom meaning (⟨context, place⟩ :: rest) place).outcome world =
      (.error (.notMonadLike place object.typeName object.lacking), after) := by
  obtain ⟨⟨step, first, second, found, stages, returned⟩, incomplete⟩ := comes
  -- the next inspection is that of the next operation, or the one after all of them
  have ended : ∀ next : Value F → Action F σ (Value F),
      (operateAll meaning place second object >>= fun value =>
        requireMonadLike place value >>= fun _ => next value).outcome after =
          (.error (.notMonadLike place object.typeName object.lacking), after) := by
    intro next
    cases second with
    | nil => exact outcome_requireMonadLike_bind incomplete place _ after
    | cons stage stages =>
        rw [operateAll, bind_assoc]
        exact outcome_requireMonadLike_bind incomplete place _ after
  have split : operateAll meaning place (first ++ second) = fun value =>
      operateAll meaning place first value >>= operateAll meaning place second :=
    funext (operateAll_append meaning place first second)
  rw [chainFrom_cons, outcome_bind, outcome_currentStep found]
  simp only [generate_eq_operateAll, stages, split]
  rw [← bind_assoc (step.source.call meaning none), bind_assoc, outcome_bind, returned]
  exact ended _

/-- A step calls its source and then the operations of its stages, each on the object that the one
before it returned. Steps of a context are chained by calling operations only on objects that lack
none: what the operations of other objects do makes no difference, neither while the steps are
chained nor where a continuation that was handed out is run later.

Chaining the steps comes to a later step only for the items of the step before it, and there it is
the chain from that step on, numbered by its place. An object of a step that lacks an operation, be
it returned by the source or by an operation that was called for a qualifier, ends the chain from
that step on, with the place of the step, the type of the object and what it lacks, before anything
else is done; and so it ends the continuation that goes on with that step, for whichever item it is
run. Where objects are those of the library, this error is the end of the whole composition, and of
the forcing of its result, in the state in which the object was returned. -/
theorem chain_inspects_objects (meaning : Meaning F σ) (context : Nat) :
    (∀ (place : Nat) (step : Step F), step.generate meaning place =
      step.source.call meaning none >>=
        operateAll meaning place (qualifierStages step.ownTarget step.qualifiers)) ∧
    (∀ other : Meaning F σ, meaning.AgreesIn context other →
      (∀ count, chainSteps other (refsFrom context 0 count) =
        chainSteps meaning (refsFrom context 0 count)) ∧
      ∀ continuation : Continuation F, continuation.PlacedIn context →
        ∀ item, continuation.apply other item = continuation.apply meaning item) ∧
    (∀ place left : Nat, chainSteps meaning (refsFrom context 0 (place + (left + 1))) =
      checkStructure (refsFrom context 0 (place + (left + 1))) >>= fun _ =>
        chainUntil meaning context (left + 1)
          (chainFrom meaning (refsFrom context place (left + 1)) place) place 0) ∧
    (∀ (place left : Nat) (object : Value F) (world after : World F σ),
      ComesToIncomplete meaning ⟨context, place⟩ object world after →
        (chainFrom meaning (refsFrom context place (left + 1)) place).outcome world =
            (.error (.notMonadLike place object.typeName object.lacking), after) ∧
          ∀ (target : Target) (item settled : Value F) (start : World F σ),
            (settleAndDeposit target item).outcome start = (.ok settled, world) →
            ((Continuation.proceed target (refsFrom context place (left + 1)) place).apply meaning
              item).outcome start =
                (.error (.notMonadLike place object.typeName object.lacking), after)) ∧
    ∀ (call : F → Option (Value F) → Action F σ (Value F)) (size place : Nat) (object : Value F)
      (world reached after : World F σ),
      place < size →
      (checkStructure (refsFrom context 0 size)).outcome world = (.ok (), world) →
      ComesToIncomplete (.standard call) ⟨context, place⟩ object reached after →
        (Enters call context size none 0 world place reached →
          (chainSteps (.standard call) (refsFrom context 0 size)).outcome world =
            (.error (.notMonadLike place object.typeName object.lacking), after)) ∧
        ∀ depth, Enters call context size (some depth) 0 world place reached →
          (chainSteps (.standard call) (refsFrom context 0 size) >>=
              Value.force (.standard call) depth).outcome world =
            (.error (.notMonadLike place object.typeName object.lacking), after) := by
  refine ⟨generate_eq_operateAll meaning, ?_, ?_, ?_, ?_⟩
  · intro other agrees
    exact ⟨agrees.chainSteps, fun continuation placed => agrees.apply placed⟩
  · intro place left
    rw [chainSteps_eq_check, chainFrom_eq_chainUntil, Nat.zero_add]
  · intro place left object world after comes
    have failed : (chainFrom meaning (refsFrom context place (left + 1)) place).outcome world =
        (.error (.notMonadLike place object.typeName object.lacking), after) := by
      rw [refsFrom_succ]
      exact comes.outcome_chainFrom _
    refine ⟨failed, fun target item settled start deposited => ?_⟩
    rw [Continuation.apply, outcome_bind, deposited]
    exact failed
  · intro call size place object world reached after inside checked comes
    obtain ⟨left, rest⟩ : ∃ left, size - place = left + 1 := ⟨size - place - 1, by omega⟩
    have failed : (chainFrom (.standard call) (refsFrom context place (size - place)) place).outcome
        reached = (.error (.notMonadLike place object.typeName object.lacking), after) := by
      rw [rest, refsFrom_succ]
      exact comes.outcome_chainFrom _
    refine ⟨fun enters => ?_, fun depth enters => ?_⟩
    · rw [chainSteps_eq_check, outcome_bind, checked]
      exact outcome_of_resultsOf_none (enters.outcome_error inside failed)
    · rw [chainSteps_eq_check, bind_assoc, outcome_bind, checked]
      exact enters.outcome_error inside failed

/-- An object with one operation, and an attribute that is none. -/
def hollow : Value F :=
  .stub 0 [(.map, .null)] [(.flatMap, false)]

def hollowing : Meaning Unit Unit where
  call _ _ := return .listMonad none false [.int 1]
  map _ _ object := return object
  filter _ _ _ := return hollow
  flatMap _ _ object := return object

/-- The same, but objects that lack an operation fail where one is called. -/
def guarded : Meaning Unit Unit where
  call := hollowing.call
  map continuation run object :=
    if object.isMonadLike then hollowing.map continuation run object else throw .exhausted
  filter continuation run object :=
    if object.isMonadLike then hollowing.filter continuation run object else throw .exhausted
  flatMap continuation run object :=
    if object.isMonadLike then hollowing.flatMap continuation run object else throw .exhausted

def filteredTwice : Step Unit where
  ownTarget := .discard
  source := .function ()
  qualifiers := [.filter (.function ()), .filter (.function ())]

/-- The source of a first step gives two numbers. That of a second step gives an empty list where
the first number is bound, and else an object whose filter returns the hollow one. -/
def hollowLater : Bool → Option (Value Bool) → Action Bool Unit (Value Bool)
  | true, _ => return .listMonad none false [.int 1, .int 2]
  | false, _ => do
      if (← get).slot "x" matches .int 1 then return .listMonad none false []
      else return .stub 0 [(.map, .null), (.flatMap, .null), (.filter, hollow)] []

def firstDrawn : Step Bool where
  ownTarget := .slot "x" none
  source := .function true

def thenFiltered : Step Bool where
  ownTarget := .discard
  source := .function false
  qualifiers := [.filter (.function true), .filter (.function true)]

/-- The first filter returns an object that the second one is not called on. In a second step, it
does so for the second item of the first step, and that is the end of the composition. -/
theorem chain_inspects_objects_filteredTwice :
    (let world : World Unit Unit := { contexts := [[filteredTwice]], client := () };
      hollowing.AgreesIn 0 guarded ∧
        (chainSteps guarded (refsFrom 0 0 1)).outcome world =
          (.error (.notMonadLike 0 .stub [.flatMap, .filter]), world)) ∧
    let world : World Bool Unit := { contexts := [[firstDrawn, thenFiltered]], client := () }
    let after := (chainSteps (.standard hollowLater) (refsFrom 0 0 2)).outcome world
    after.1 = .error (.notMonadLike 1 .stub [.flatMap, .filter]) ∧
      after.2.slot "x" = .int 2 ∧ after.2.events = [.stubbed .filter] := by
  constructor
  · intro world
    have agrees : hollowing.AgreesIn 0 guarded := by
      refine ⟨rfl, ?_⟩
      intro operation continuation object _ complete
      cases operation with
      | unit => rfl
      | _ => exact if_pos complete
    refine ⟨agrees, ?_⟩
    obtain ⟨-, alike, whole, stops, -⟩ := chain_inspects_objects hollowing 0
    have ended := (stops 0 0 hollow world world
      ⟨⟨filteredTwice, [⟨.filter, .test .discard (.function ())⟩],
        [⟨.filter, .test .discard (.function ())⟩], rfl, rfl, rfl⟩, rfl⟩).1
    rw [(alike guarded agrees).1 1, whole 0 0, outcome_bind]
    exact ended
  · intro world after
    obtain ⟨-, -, -, -, later⟩ := chain_inspects_objects (.standard hollowLater) 0
    have drawn : GoesOn (.standard hollowLater) ⟨0, 0⟩ firstDrawn
        (.listMonad none false ([.int 1] ++ .int 2 :: [])) world world :=
      ⟨rfl, rfl, firstDrawn, rfl, rfl⟩
    have enters : Enters hollowLater 0 2 none 0 world 1
        { world with slots := ((world.setSlot "x" (.int 1)).setSlot "x" (.int 2)).slots } :=
      .listed drawn rfl rfl (.here _ _ _)
    have ended := (later hollowLater 2 1 hollow world _ _ (by decide) rfl
      ⟨⟨thenFiltered, [⟨.filter, .test .discard (.function true)⟩],
        [⟨.filter, .test .discard (.function true)⟩], rfl, rfl, rfl⟩, rfl⟩).1 enters
    rw [show after = _ from ended]
    exact ⟨rfl, rfl, rfl⟩

end Bindery
