import Bindery.Proofs.Inspection
import Bindery.Proofs.Usability

set_option autoImplicit false

namespace Bindery

open Bindery.Action

variable {F σ α β : Type}

/-- While all registered targets are usable, the action does not fail for want of support, and it
leaves them so. -/
def Action.Supported (action : Action F σ α) : Prop :=
  ∀ world : World F σ, world.Usable →
    action.Ends world (fun _ after => after.Usable)
      fun error after => ¬ error.IsUnsupported ∧ after.Usable

section Rules

theorem supported_pure (value : α) : Supported (pure value : Action F σ α) :=
  fun _ usable => usable

theorem supported_throw {error : Error} (other : ¬ error.IsUnsupported) :
    Supported (throw error : Action F σ α) :=
  fun _ usable => ⟨other, usable⟩

theorem Action.Supported.bind {action : Action F σ α} {next : α → Action F σ β}
    (first : Supported action) (rest : ∀ value, Supported (next value)) :
    Supported (action >>= next) := by
  intro world usable
  rw [ends_bind]
  exact (first world usable).imp fun value after kept => rest value after kept

theorem Action.Supported.ite {condition : Prop} [Decidable condition]
    {accepted refused : Action F σ α} (first : Supported accepted) (second : Supported refused) :
    Supported (if condition then accepted else refused) := by
  split
  · exact first
  · exact second

theorem supported_of_preserves {action : Action F σ α}
    (preserves : Preserves World.Usable action)
    (others : ∀ world : World F σ,
      action.Ends world (fun _ _ => True) fun error _ => ¬ error.IsUnsupported) :
    Supported action := by
  intro world usable
  exact ((others world).and (preserves world usable)).mono (fun _ _ found => found.2)
    fun _ _ found => found

theorem supported_deposit {target : Target} (usable : target.usable = true) (value : Value F) :
    Supported (deposit target value : Action F σ PUnit) :=
  supported_of_preserves (deposit_preserves usable_ignoresTargets target value)
    (ends_deposit_of_usable usable value)

theorem supported_sequenceItems (value : Value F) :
    Supported (sequenceItems value : Action F σ (List (Value F))) := by
  refine supported_of_preserves
    (sequenceItems_preserves usable_ignoresTargets.ignoresSupplies value) fun world => ?_
  refine (ends_sequenceItems_raised value world).mono (fun _ _ _ => trivial) ?_
  intro error _ failed
  obtain ⟨message, same⟩ := failed
  rw [same]
  exact id

mutual

theorem supported_settle : ∀ (target : Target) (value : Value F),
    Supported (settle target value : Action F σ (Value F))
  | .sequence _ _, value => by
      rw [settle]
      exact (supported_sequenceItems value).bind fun _ => supported_pure _
  | .tuple parts, value => by
      cases value with
      | bundle components =>
          rw [settle]
          exact ((supported_settleAll parts components).bind fun _ => supported_pure _).ite
            (supported_pure _)
      | _ =>
          simp only [settle]
          exact supported_pure _
  | .discard, _ | .slot _ _, _ | .external _ _ _, _ | .unusable _ _, _ => by
      simp only [settle]
      exact supported_pure _

theorem supported_settleAll : ∀ (parts : List Target) (components : List (Value F)),
    Supported (settleAll parts components : Action F σ (List (Value F)))
  | part :: parts, component :: components => by
      rw [settleAll]
      exact (supported_settle part component).bind fun _ =>
        (supported_settleAll parts components).bind fun _ => supported_pure _
  | [], _ => by
      rw [settleAll]
      · exact supported_pure _
      · simp
  | _ :: _, [] => by
      rw [settleAll]
      · exact supported_pure _
      · simp

end

theorem supported_settleAndDeposit {target : Target} (usable : target.usable = true)
    (value : Value F) : Supported (settleAndDeposit target value : Action F σ (Value F)) :=
  (supported_settle target value).bind fun settled =>
    (supported_deposit usable settled).bind fun _ => supported_pure _

theorem supported_requireMonadLike (index : Int) (object : Value F) :
    Supported (requireMonadLike index object : Action F σ PUnit) :=
  (supported_pure _).ite (supported_throw id)

/-- What goes on with a registered step may use that its targets are usable. -/
theorem supported_currentStep_bind {ref : StepRef} {next : Step F → Action F σ α}
    (each : ∀ step : Step F, step.Usable → Supported (next step)) :
    Supported (currentStep ref >>= next) := by
  intro world usable
  rw [currentStep, bind_assoc, ends_bind, ends_get]
  cases found : world.step? ref with
  | none => exact ⟨id, usable⟩
  | some step => exact each step (usable.of_step? found) world usable

theorem supported_checkBlockPlace (total : Nat) (refs : List StepRef) (index : Nat) :
    Supported (checkBlockPlace total refs index : Action F σ PUnit) := by
  induction refs generalizing index with
  | nil => exact supported_pure _
  | cons ref rest ih =>
      cases rest with
      | nil => exact supported_pure _
      | cons next others =>
          exact supported_currentStep_bind fun step _ => (supported_throw id).ite (ih (index + 1))

theorem supported_checkStructure (refs : List StepRef) :
    Supported (checkStructure refs : Action F σ PUnit) := by
  cases refs with
  | nil => exact supported_throw id
  | cons ref rest => exact supported_checkBlockPlace _ _ _

end Rules

/-- The target that a continuation captures items into, if any, is usable. -/
def Continuation.Usable : Continuation F → Prop
  | .test target _ => target.usable = true
  | .settle _ => True
  | .pair previous _ _ => previous.usable = true
  | .conclude target _ => target.usable = true
  | .proceed target _ _ => target.usable = true

/-- Functions do not fail for want of support by themselves. Nor do operations, as long as they are
given usable work that does not. -/
structure Meaning.Supported (meaning : Meaning F σ) : Prop where
  call : ∀ body argument, Action.Supported (meaning.call body argument)
  operation : ∀ (operation : Operation) (continuation : Continuation F) (run : ItemAction F σ)
    (object : Value F), continuation.Usable → (∀ item, Action.Supported (run item)) →
      Action.Supported (meaning.operation operation continuation run object)

theorem Step.Usable.target {step : Step F} (usable : step.Usable) : step.target.usable = true := by
  have folded : ∀ (qualifiers : List (Qualifier F)) (target : Target), target.usable = true →
      (∀ added thunk, .define added thunk ∈ qualifiers → added.usable = true) →
        (qualifiers.foldl Qualifier.retarget target).usable = true := by
    intro qualifiers
    induction qualifiers with
    | nil => exact fun _ here _ => here
    | cons qualifier rest ih =>
        intro target here added
        rw [List.foldl_cons]
        refine ih _ ?_ fun other thunk member => added other thunk (List.mem_cons_of_mem _ member)
        cases qualifier with
        | filter predicate => exact here
        | define other thunk =>
            rw [Qualifier.retarget, Target.usable_pair, here, added other thunk List.mem_cons_self]
            rfl
  exact folded step.qualifiers step.ownTarget usable.own usable.added

theorem usable_of_mem_qualifierStages {target : Target} {qualifiers : List (Qualifier F)}
    (usable : target.usable = true)
    (added : ∀ other thunk, .define other thunk ∈ qualifiers → other.usable = true) :
    ∀ stage ∈ qualifierStages target qualifiers, stage.continuation.Usable := by
  induction qualifiers generalizing target with
  | nil => simp [qualifierStages]
  | cons qualifier rest ih =>
      have later : ∀ other thunk, .define other thunk ∈ rest → other.usable = true :=
        fun other thunk member => added other thunk (List.mem_cons_of_mem _ member)
      cases qualifier with
      | filter predicate =>
          rw [qualifierStages, List.forall_mem_append]
          refine ⟨?_, ih usable later⟩
          rw [filterStages]
          split <;> simp [Continuation.Usable, usable]
      | define other thunk =>
          have paired : (Target.tuple [target, other]).usable = true := by
            rw [Target.usable_pair, usable, added other thunk List.mem_cons_self]
            rfl
          rw [qualifierStages, List.forall_mem_cons]
          exact ⟨usable, ih paired later⟩

/-- A call is not refused for want of support: a bad target is refused in words of its own. -/
theorem Call.not_isUnsupported_of_refusal? {call : Call F} {steps : List (Step F)} {error : Error}
    (refused : call.refusal? steps = some error) : ¬ error.IsUnsupported := by
  cases call with
  | draw target source =>
      cases source with
      | function body =>
          simp only [refusal?] at refused
          split at refused <;> cases refused
          exact id
      | object type =>
          cases refused
          exact id
  | restrict predicate | define target thunk | conclude block =>
      simp only [refusal?] at refused
      split at refused <;> cases refused
      exact id

theorem Call.usable_of_early? {call : Call F} (usable : call.Usable) {steps : List (Step F)}
    {target : Target} {thunk : Callback F} (early : call.early? steps = some (target, thunk)) :
    target.usable = true := by
  cases call with
  | define other body =>
      cases steps with
      | nil =>
          cases early
          exact usable
      | cons step rest => cases early
  | _ => cases early

namespace Meaning.Supported

variable {meaning : Meaning F σ} (supported : meaning.Supported)
include supported

theorem callback (callback : Callback F) (argument : Option (Value F)) :
    Action.Supported (callback.call meaning argument) := by
  cases callback with
  | function body => exact supported.call body argument
  | object type => exact supported_throw id

theorem apply_of {continuation : Continuation F} (usable : continuation.Usable)
    (chained : ∀ target rest index, continuation = .proceed target rest index →
      Action.Supported (Bindery.chainFrom meaning rest index)) (item : Value F) :
    Action.Supported (continuation.apply meaning item) := by
  cases continuation with
  | test target predicate =>
      exact (supported_deposit usable item).bind fun _ => supported.callback predicate _
  | settle target => exact supported_settle target item
  | pair previous added thunk =>
      exact (supported_settleAndDeposit usable item).bind fun _ =>
        (supported.callback thunk none).bind fun defined =>
          (supported_settle added defined).bind fun _ => supported_pure _
  | conclude target block =>
      exact (supported_settleAndDeposit usable item).bind fun _ => supported.callback block _
  | proceed target rest index =>
      exact (supported_settleAndDeposit usable item).bind fun _ => chained target rest index rfl

theorem operateAll (index : Nat) {stages : List (Stage F)}
    (each : ∀ stage ∈ stages, stage.continuation.Usable ∧
      ∀ target rest place, stage.continuation ≠ .proceed target rest place) (object : Value F) :
    Action.Supported (Bindery.operateAll meaning index stages object) := by
  induction stages generalizing object with
  | nil => exact supported_pure _
  | cons stage rest ih =>
      rw [List.forall_mem_cons] at each
      obtain ⟨⟨usable, ends⟩, others⟩ := each
      have work : ∀ item, Action.Supported (stage.continuation.apply meaning item) :=
        supported.apply_of usable fun target refs place same => absurd same (ends target refs place)
      exact (supported_requireMonadLike _ _).bind fun _ =>
        (supported.operation _ _ _ object usable work).bind (ih others)

theorem generate (index : Nat) {step : Step F} (usable : step.Usable) :
    Action.Supported (step.generate meaning index) := by
  have each : ∀ stage ∈ qualifierStages step.ownTarget step.qualifiers,
      stage.continuation.Usable ∧
        ∀ target rest place, stage.continuation ≠ .proceed target rest place := by
    intro stage member
    exact ⟨usable_of_mem_qualifierStages usable.own usable.added stage member,
      not_proceed_of_mem_qualifierStages step.ownTarget step.qualifiers stage member⟩
  rw [generate_eq_operateAll]
  exact (supported.callback step.source none).bind (supported.operateAll index each)

theorem chainFrom (refs : List StepRef) (index : Nat) :
    Action.Supported (Bindery.chainFrom meaning refs index) := by
  induction refs generalizing index with
  | nil => exact supported_throw id
  | cons ref rest ih =>
      rw [chainFrom_cons]
      refine supported_currentStep_bind fun step usable => (supported.generate _ usable).bind
        fun value => (supported_requireMonadLike _ _).bind fun _ =>
          supported_currentStep_bind fun now _ => ?_
      rw [finishValue_eq]
      cases listed : finishStages step now rest index with
      | nil => exact supported_pure _
      | cons stage stages =>
          have finishes : stage.continuation = .conclude step.target now.block ∨
              ∃ index, stage.continuation = .proceed step.target rest index := by
            rw [finishStages.eq_def] at listed
            split at listed
            · cases listed
              exact Or.inl rfl
            · cases rest with
              | nil => cases listed
              | cons next others =>
                  cases listed
                  exact Or.inr ⟨_, rfl⟩
          have work : stage.continuation.Usable := by
            rcases finishes with same | ⟨place, same⟩ <;> rw [same] <;> exact usable.target
          refine supported.operation _ _ _ value work (supported.apply_of work ?_)
          intro target refs place same
          rcases finishes with other | ⟨_, other⟩ <;> rw [other] at same <;> cases same
          exact ih _

theorem chainSteps (refs : List StepRef) :
    Action.Supported (Bindery.chainSteps meaning refs) := by
  rw [chainSteps_eq_check]
  exact (supported_checkStructure refs).bind fun _ => supported.chainFrom refs 0

theorem apply {continuation : Continuation F} (usable : continuation.Usable) (item : Value F) :
    Action.Supported (continuation.apply meaning item) :=
  supported.apply_of usable (fun _ rest index _ => supported.chainFrom rest index) item

theorem perform (context : Nat) {call : Call F} (usable : call.Usable) :
    Action.Supported (call.perform meaning context) := by
  intro world kept
  have same : (call.perform meaning context).outcome world = _ := call.outcome_perform_eq meaning
  cases refused : call.refusal? (world.steps context) with
  | some error =>
      have ends : (throw error : Action F σ PUnit).Ends world (fun _ after => after.Usable)
          fun error after => ¬ error.IsUnsupported ∧ after.Usable :=
        ⟨Call.not_isUnsupported_of_refusal? refused, kept⟩
      refine ends.of_outcome_eq ?_
      rw [same, refused]
      rfl
  | none =>
      cases early : call.early? (world.steps context) with
      | some captured =>
          obtain ⟨target, thunk⟩ := captured
          have ends := (supported.callback thunk none).bind fun value =>
            supported_deposit (Call.usable_of_early? usable early) value
          refine (ends world kept).of_outcome_eq ?_
          rw [same, refused, early]
      | none =>
          have ends : (modify (call.register context) : Action F σ PUnit).Ends world
              (fun _ after => after.Usable) fun error after =>
                ¬ error.IsUnsupported ∧ after.Usable :=
            kept.modifySteps context usable
          refine ends.of_outcome_eq ?_
          rw [same, refused, early]
          rfl

theorem performAll (context : Nat) {calls : List (Call F)} (usable : ∀ call ∈ calls, call.Usable) :
    Action.Supported (Call.performAll meaning context calls) := by
  induction calls with
  | nil => exact supported_pure _
  | cons call rest ih =>
      rw [List.forall_mem_cons] at usable
      exact (supported.perform context usable.1).bind fun _ => ih usable.2

theorem chain {description : Description F σ}
    (describes : ∀ context, Action.Supported (description context)) :
    Action.Supported (description.chain meaning) := by
  have listed : ∀ context, Action.Supported (Context.stepRefs context : Action F σ _) :=
    fun _ _ usable => usable
  have created : Action.Supported (Context.create : Action F σ Nat) := by
    intro world usable steps member
    rcases List.mem_append.mp member with earlier | new
    · exact usable steps earlier
    · rw [List.mem_singleton.mp new]
      simp
  have opened : ∀ context, Action.Supported (modify fun world : World F σ =>
      { world with opened := context :: world.opened }) :=
    fun _ _ usable => usable
  refine Supported.bind (Supported.bind ?_ listed) supported.chainSteps
  intro world usable
  rw [Context.withNew, ends_keepOpened]
  have body := created.bind fun context => (opened context).bind fun _ =>
    (describes context).bind fun _ => supported_pure context
  exact body world usable

end Meaning.Supported

section Operations

variable {run : ItemAction F σ} (each : ∀ item, Supported (run item))
include each

theorem supported_collect (items : List (Value F)) : Supported (collect run items) := by
  induction items with
  | nil => exact supported_pure _
  | cons item rest ih => exact (each item).bind fun _ => ih.bind fun _ => supported_pure _

theorem supported_retain (items : List (Value F)) : Supported (retain run items) := by
  induction items with
  | nil => exact supported_pure _
  | cons item rest ih => exact (each item).bind fun _ => ih.bind fun _ => supported_pure _

theorem supported_gather (items : List (Value F)) : Supported (gather listItems run items) := by
  have itemsOf : ∀ value, Supported (listItems value : Action F σ (List (Value F))) := by
    intro value
    cases value with
    | listMonad number traced items => exact supported_pure items
    | _ => exact supported_throw id
  induction items with
  | nil => exact supported_pure _
  | cons item rest ih =>
      exact (each item).bind fun result => (itemsOf result).bind fun _ => ih.bind fun _ =>
        supported_pure _

end Operations

theorem supported_recordApplied (traced : Bool) (operation : Operation) (items : List (Value F)) :
    Supported (recordApplied traced operation items : Action F σ PUnit) := by
  cases traced <;> exact fun _ usable => usable

theorem supported_callStub (operation : Operation) (value : Value F) :
    Supported (callStub operation value : Action F σ (Value F)) := by
  cases value with
  | stub number methods attributes =>
      rw [callStub]
      cases methods.lookup operation with
      | none => exact supported_throw id
      | some result => exact fun _ usable => usable
  | _ => exact supported_throw id

/-- The operations of the library's own monad-like values do not fail for want of support by
themselves. -/
theorem supported_standard {call : F → Option (Value F) → Action F σ (Value F)}
    (functions : ∀ body argument, Supported (call body argument)) :
    (Meaning.standard call).Supported := by
  refine ⟨functions, ?_⟩
  intro operation continuation run object _ each
  cases operation with
  | unit => exact supported_pure object
  | map =>
      show Supported (object.map continuation run)
      cases object with
      | listMonad number traced items =>
          exact (supported_recordApplied _ _ _).bind fun _ =>
            (supported_collect each items).bind fun _ => supported_pure _
      | just number content => exact (each content).bind fun _ => supported_pure _
      | nothing number => exact supported_pure _
      | deferred number items stages => exact supported_pure _
      | _ =>
          simp only [Value.map]
          exact supported_callStub _ _
  | filter =>
      show Supported (object.filter continuation run)
      cases object with
      | listMonad number traced items =>
          exact (supported_recordApplied _ _ _).bind fun _ =>
            (supported_retain each items).bind fun _ => supported_pure _
      | just number content => exact (each content).bind fun _ => supported_pure _
      | nothing number => exact supported_pure _
      | deferred number items stages => exact supported_pure _
      | _ =>
          simp only [Value.filter]
          exact supported_callStub _ _
  | flatMap =>
      show Supported (object.flatMap continuation run)
      cases object with
      | listMonad number traced items =>
          exact (supported_recordApplied _ _ _).bind fun _ =>
            (supported_gather each items).bind fun _ => supported_pure _
      | just number content => exact each content
      | nothing number => exact supported_pure _
      | deferred number items stages => exact supported_pure _
      | _ =>
          simp only [Value.flatMap]
          exact supported_callStub _ _

/-- An object that takes no values is refused as a target, before any function is called. But a
target is accepted by its outermost object alone. If it has an unusable part further down, the
deposit of a value that fits fails there, unless something else fails. If it has none, no deposit
into it fails so; and if no target of any call has one, nothing fails so, neither while the calls
are made nor while the steps are chained nor where a continuation is run later, whatever functions
and objects do that do not fail so by themselves. -/
theorem unsupported_only_at_unusable_parts :
    (∀ (meaning : Meaning F σ) (context : Nat) (target : Target) (world : World F σ),
      target.accepts = false →
        (∀ body, (Context.draw context target (.function body)).outcome world =
          (.error (.badTarget .draw target.typeName), world)) ∧
        ∀ thunk, (Context.define meaning context target thunk).outcome world =
          (.error (.badTarget .define target.typeName), world)) ∧
    (∀ (target : Target) (value : Value F) (world : World F σ), target.Fits value →
      (∀ arrival ∈ target.arrivals value, ∀ error,
        arrival.refusal? world.supplies = some error → error.IsUnsupported) →
      ((∃ type, ((deposit target value).outcome world).1 = .error (.unsupportedTarget type)) ↔
        target.usable = false)) ∧
    (∀ (target : Target) (value : Value F) (world : World F σ), target.usable = true →
      ∀ type, ((deposit target value).outcome world).1 ≠ .error (.unsupportedTarget type)) ∧
    ∀ meaning : Meaning F σ, meaning.Supported →
      (∀ calls : List (Call F), (∀ call ∈ calls, call.Usable) →
        (Description.chain meaning fun context =>
          Call.performAll meaning context calls).Supported) ∧
      (∀ refs, (chainSteps meaning refs).Supported) ∧
      ∀ continuation : Continuation F, continuation.Usable →
        ∀ item, (continuation.apply meaning item).Supported := by
  have never : ∀ (target : Target) (value : Value F) (world : World F σ), target.usable = true →
      ∀ type, ((deposit target value).outcome world).1 ≠ .error (.unsupportedTarget type) := by
    intro target value world usable type failed
    have reached : (deposit target value).outcome world = (.error (.unsupportedTarget type),
        ((deposit target value).outcome world).2) := Prod.ext failed rfl
    exact (ends_deposit_of_usable usable value world).of_error reached trivial
  refine ⟨?_, ?_, never, ?_⟩
  · intro meaning context target world unusable
    refine ⟨fun body => ?_, fun thunk => ?_⟩
    · simp [Context.draw, Callback.isNull, Context.requireTarget, unusable]
    · simp [Context.define, Context.requireTarget, unusable]
  · intro target value world fits quiet
    constructor
    · intro failed
      obtain ⟨type, same⟩ := failed
      by_contra usable
      exact never target value world (by simpa using usable) type same
    · intro broken
      exact outcome_deposit_of_not_usable broken fits quiet
  · intro meaning supported
    exact ⟨fun calls usable => supported.chain fun context => supported.performAll context usable,
      supported.chainSteps, fun continuation usable => supported.apply usable⟩

def brokenPair : Target :=
  .tuple [.slot "x" none, .unusable .int (.whole 42)]

/-- Functions count how often they are called, and give a list of one pair. -/
def countingPairs : Meaning Unit Nat :=
  .standard fun _ _ => do
    modify fun world => { world with client := world.client + 1 }
    return .listMonad none false [.bundle [.int 1, .int 2]]

/-- The target is accepted, the source is called and gives a value that fits, and the deposit fails
at the second part. -/
theorem brokenPair_accepted_and_unsupported :
    brokenPair.accepts = true ∧ brokenPair.Fits (.bundle [.int 1, .int 2] : Value Unit) ∧
      ∃ after, (Description.chain countingPairs fun context =>
          Call.performAll countingPairs context
            [.draw brokenPair (.function ()), .conclude (.function ())]).outcome { client := 0 } =
            (.error (.unsupportedTarget .int), after) ∧
          after.client = 1 ∧ after.content (.slot "x") = .int 1 := by
  refine ⟨rfl, ?_, _, rfl, rfl, rfl⟩
  simp [brokenPair, Target.Takes]

/-- With two slots nothing fails so, and with the broken pair its deposit does. -/
theorem unsupported_only_at_unusable_parts_brokenPair :
    (Description.chain countingPairs fun context =>
      Call.performAll countingPairs context
        [.draw (.tuple [.slot "x" none, .slot "y" none]) (.function ()),
          .conclude (.function ())]).Supported ∧
    ∃ type, ((deposit brokenPair (.bundle [.int 1, .int 2] : Value Unit)).outcome
      ({ client := 0 } : World Unit Nat)).1 = .error (.unsupportedTarget type) := by
  obtain ⟨-, exact, -, runs⟩ := unsupported_only_at_unusable_parts (F := Unit) (σ := Nat)
  have supported : countingPairs.Supported := supported_standard fun _ _ _ usable => usable
  refine ⟨(runs countingPairs supported).1 _ ?_, (exact brokenPair _ _ ?_ ?_).mpr rfl⟩
  · simp [Call.Usable, Target.usable, Target.allUsable]
  · simp [brokenPair, Target.Takes]
  · simp [brokenPair, Target.arrivals, Target.allArrivals, Arrival.refusal?, Error.IsUnsupported]

end Bindery
