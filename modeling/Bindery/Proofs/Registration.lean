import Bindery.Context
import Bindery.Proofs.Frame

set_option autoImplicit false

namespace Bindery

variable {F σ : Type}

def Qualifier.call : Qualifier F → Call F
  | .filter predicate => .restrict predicate
  | .define target thunk => .define target thunk

/-- What holds of all items still holds after one of them has been changed, if the change keeps it.
-/
theorem forall_mem_modify {α : Type} {such : α → Prop} {items : List α} {place : Nat}
    {change : α → α} (all : ∀ item ∈ items, such item)
    (keeps : ∀ item, such item → such (change item)) :
    ∀ item ∈ items.modify place change, such item := by
  intro item member
  obtain ⟨index, inside, same⟩ := List.mem_iff_getElem.mp member
  rw [← same, List.getElem_modify]
  split
  · exact keeps _ (all _ (List.getElem_mem _))
  · exact all _ (List.getElem_mem _)

theorem World.exists_mem_of_step? {world : World F σ} {ref : StepRef} {step : Step F}
    (found : world.step? ref = some step) : ∃ steps ∈ world.contexts, step ∈ steps := by
  have member : step ∈ world.steps ref.context := List.mem_of_getElem? found
  cases known : world.contexts[ref.context]? with
  | none => simp [World.steps, known] at member
  | some steps =>
      rw [World.steps, known, Option.getD_some] at member
      exact ⟨steps, List.mem_of_getElem? known, member⟩

namespace Call

def performAll (meaning : Meaning F σ) (context : Nat) : List (Call F) → Action F σ PUnit
  | [] => return ()
  | call :: calls => do
      call.perform meaning context
      performAll meaning context calls

/-- The steps of a context after a call. -/
def amend : Call F → List (Step F) → List (Step F)
  | .draw target source, steps => steps ++ [{ ownTarget := target, source }]
  | .restrict predicate, steps =>
      steps.modify (steps.length - 1) fun step => step.qualified (.filter predicate)
  | .define target thunk, steps =>
      steps.modify (steps.length - 1) fun step => step.qualified (.define target thunk)
  | .conclude block, steps => steps.modify (steps.length - 1) fun step => { step with block }

def amendAll (calls : List (Call F)) (steps : List (Step F)) : List (Step F) :=
  calls.foldl (fun reached call => call.amend reached) steps

/-- Whether a call on a context with these steps registers something and leaves nothing to see. -/
def InOrder : Call F → List (Step F) → Prop
  | .draw target source, _ => target.accepts = true ∧ ∃ body, source = .function body
  | .restrict _, steps => steps ≠ []
  | .define target _, steps => target.accepts = true ∧ steps ≠ []
  | .conclude _, steps => ∃ step, steps.getLast? = some step ∧ step.hasBlock = false

/-- Whether each of the calls is in order when it is made. -/
def AllInOrder : List (Call F) → List (Step F) → Prop
  | [], _ => True
  | call :: calls, steps => call.InOrder steps ∧ AllInOrder calls (call.amend steps)

theorem modify_last (front : List (Step F)) (last : Step F) (change : Step F → Step F) :
    (front ++ [last]).modify ((front ++ [last]).length - 1) change = front ++ [change last] := by
  rw [List.modify_eq_take_cons_drop (by simp)]
  simp

theorem amend_qualifier (qualifier : Qualifier F) (front : List (Step F)) (step : Step F) :
    qualifier.call.amend (front ++ [step]) = front ++ [step.qualified qualifier] := by
  cases qualifier <;> exact modify_last _ _ _

theorem allInOrder_append (first second : List (Call F)) (steps : List (Step F)) :
    AllInOrder (first ++ second) steps ↔
      AllInOrder first steps ∧ AllInOrder second (amendAll first steps) := by
  induction first generalizing steps with
  | nil => simp [AllInOrder, amendAll]
  | cons call rest ih => simp [AllInOrder, amendAll, ih, and_assoc]

theorem amendAll_append (first second : List (Call F)) (steps : List (Step F)) :
    amendAll (first ++ second) steps = amendAll second (amendAll first steps) :=
  List.foldl_append

end Call

theorem amendAll_qualifiers (qualifiers : List (Qualifier F)) (front : List (Step F))
    (step : Step F) :
    Call.amendAll (qualifiers.map Qualifier.call) (front ++ [step]) =
      front ++ [{ step with qualifiers := step.qualifiers ++ qualifiers }] := by
  induction qualifiers generalizing step with
  | nil => simp [Call.amendAll]
  | cons qualifier rest ih =>
      rw [List.map_cons, Call.amendAll, List.foldl_cons, Call.amend_qualifier, ← Call.amendAll, ih]
      simp [Step.qualified]

theorem allInOrder_qualifiers (qualifiers : List (Qualifier F)) (front : List (Step F))
    (step : Step F)
    (accept : ∀ target thunk, Qualifier.define target thunk ∈ qualifiers →
      target.accepts = true) :
    Call.AllInOrder (qualifiers.map Qualifier.call) (front ++ [step]) := by
  induction qualifiers generalizing step with
  | nil => trivial
  | cons qualifier rest ih =>
      refine ⟨?_, ?_⟩
      · cases qualifier with
        | filter predicate => simp [Qualifier.call, Call.InOrder]
        | define target thunk => simpa [Qualifier.call, Call.InOrder] using accept target thunk
      · rw [Call.amend_qualifier]
        exact ih _ fun target thunk member => accept target thunk (by simp [member])

variable {world : World F σ} {context : Nat}

theorem Context.outcome_lastStep {step : Step F} (verb : Verb)
    (last : (world.steps context).getLast? = some step) :
    (Context.lastStep verb context).outcome world = (.ok step, world) := by
  simp [Context.lastStep, Action.outcome_bind, last]

theorem Call.outcome_perform (meaning : Meaning F σ) (call : Call F)
    (inOrder : call.InOrder (world.steps context)) :
    (call.perform meaning context).outcome world =
      (.ok (), world.modifySteps context call.amend) := by
  cases call with
  | draw target source =>
      obtain ⟨accepts, body, rfl⟩ := inOrder
      simp [perform, Context.draw, Callback.isNull, Context.requireTarget, accepts]
      rfl
  | restrict predicate =>
      obtain ⟨step, last⟩ := Option.isSome_iff_exists.mp (List.getLast?_isSome.mpr inOrder)
      simp only [perform, Context.restrict, Action.outcome_bind, Context.outcome_lastStep _ last]
      rfl
  | define target thunk =>
      obtain ⟨accepts, some_step⟩ := inOrder
      simp [perform, Context.define, Action.outcome_bind, Context.requireTarget, accepts, some_step]
      rfl
  | conclude block =>
      obtain ⟨step, last, bare⟩ := inOrder
      simp only [perform, Context.conclude, Action.outcome_bind, Context.outcome_lastStep _ last,
        bare]
      rfl

/-- Calls that are in order change the steps of their own context and nothing else. -/
theorem Call.outcome_performAll (meaning : Meaning F σ) (calls : List (Call F))
    (known : context < world.contexts.length) (inOrder : AllInOrder calls (world.steps context)) :
    (performAll meaning context calls).outcome world =
      (.ok (), world.modifySteps context (amendAll calls)) := by
  induction calls generalizing world with
  | nil =>
      have same : amendAll ([] : List (Call F)) = id := rfl
      simp [performAll, same, World.modifySteps]
  | cons call rest ih =>
      rw [performAll, Action.outcome_bind, outcome_perform meaning call inOrder.1]
      refine (ih (by simpa [World.modifySteps] using known) ?_).trans ?_
      · simpa [World.steps_modifySteps _ _ _ _ known] using inOrder.2
      · simp only [World.modifySteps, List.modify_modify_eq]
        rfl

theorem Call.performAll_append (meaning : Meaning F σ) (first second : List (Call F)) :
    performAll meaning context (first ++ second) =
      performAll meaning context first >>= fun _ => performAll meaning context second := by
  induction first with
  | nil => simp [performAll]
  | cons call rest ih => simp [performAll, ih]

/-- A call keeps what amending the steps keeps and what functions keep, apart from what targets
hold. -/
theorem Call.preserves_perform {invariant : World F σ → Prop} (ignores : IgnoresTargets invariant)
    {meaning : Meaning F σ} (context : Nat) {call : Call F}
    (amends : ∀ world, invariant world → invariant (world.modifySteps context call.amend))
    (functions : ∀ (callback : Callback F) argument,
      Action.Preserves invariant (callback.call meaning argument)) :
    Action.Preserves invariant (call.perform meaning context) := by
  have amended : Action.Preserves invariant (modify (·.modifySteps context call.amend)) :=
    Action.preserves_modify amends
  have lastStep : ∀ verb, Action.Preserves invariant (Context.lastStep verb context) := by
    refine fun verb => Action.preserves_get.bind fun world => ?_
    cases (world.steps context).getLast? with
    | none => exact Action.preserves_throw _
    | some step => exact Action.preserves_pure _
  cases call with
  | draw target source =>
      cases source with
      | function body =>
          exact ((Action.preserves_pure _).ite (Action.preserves_throw _)).bind fun _ => amended
      | object type =>
          rw [perform, Context.draw]
          cases (Callback.object (F := F) type).isNull <;> exact Action.preserves_throw _
  | restrict predicate => exact (lastStep _).bind fun _ => amended
  | define target thunk =>
      refine ((Action.preserves_pure _).ite (Action.preserves_throw _)).bind fun _ =>
        Action.preserves_get.bind fun world => Action.Preserves.ite ?_ amended
      exact (functions thunk none).bind fun value => deposit_preserves ignores target value
  | conclude block =>
      refine (lastStep _).bind fun step => Action.Preserves.ite ?_ amended
      have recorded : Action.Preserves invariant
          (Action.record .blockReplaced : Action F σ PUnit) :=
        Action.preserves_modify fun world holds => ignores world _ _ _ _ _ holds
      exact recorded.bind fun _ => amended

/-- Before the first step, a definition makes its value and captures it. -/
theorem Context.outcome_define_of_empty (meaning : Meaning F σ) {target : Target}
    (thunk : Callback F) (accepts : target.accepts = true) (empty : world.steps context = []) :
    (Context.define meaning context target thunk).outcome world =
      (thunk.call meaning none >>= fun value => deposit target value).outcome world := by
  simp [Context.define, Action.outcome_bind, Context.requireTarget, accepts, empty]

namespace Call

/-- What a call on a context with these steps is refused with, if it is. -/
def refusal? : Call F → List (Step F) → Option Error
  | .draw target source, _ =>
      match source with
      | .function _ => if target.accepts then none else some (.badTarget .draw target.typeName)
      | .object type => some (.badSource (if type = .null then target.typeName else type))
  | .restrict _, steps => if steps.isEmpty then some (.outOfOrder .restrict) else none
  | .define target _, _ =>
      if target.accepts then none else some (.badTarget .define target.typeName)
  | .conclude _, steps => if steps.isEmpty then some (.outOfOrder .conclude) else none

/-- What a definition is to capture at once, if it is made where there are no steps. -/
def early? : Call F → List (Step F) → Option (Target × Callback F)
  | .define target thunk, [] => some (target, thunk)
  | _, _ => none

def events : Call F → List (Step F) → List Event
  | .conclude _, steps => if steps.getLast?.any Step.hasBlock then [.blockReplaced] else []
  | _, _ => []

/-- The state after a call on a context that is neither refused nor early. -/
def register (call : Call F) (context : Nat) (world : World F σ) : World F σ :=
  { world.modifySteps context call.amend with
    events := world.events ++ call.events (world.steps context) }

/-- A call is refused and does nothing, or it captures a value at once, or it registers something
in its own context. -/
theorem outcome_perform_eq (meaning : Meaning F σ) (call : Call F) :
    (call.perform meaning context).outcome world =
      match call.refusal? (world.steps context), call.early? (world.steps context) with
      | some error, _ => (.error error, world)
      | none, some (target, thunk) =>
          (thunk.call meaning none >>= fun value => deposit target value).outcome world
      | none, none => (.ok (), call.register context world) := by
  have silent : world.modifySteps context call.amend =
      { world.modifySteps context call.amend with events := world.events ++ [] } := by
    rw [List.append_nil]
    rfl
  cases call with
  | draw target source =>
      cases source with
      | function body =>
          cases accepts : target.accepts
          · simp [perform, Context.draw, Callback.isNull, Context.requireTarget, refusal?, accepts]
          · have inOrder : (draw target (.function body)).InOrder (world.steps context) :=
              ⟨accepts, body, rfl⟩
            simp only [refusal?, accepts]
            exact (outcome_perform meaning _ inOrder).trans (congrArg _ silent)
      | object type =>
          cases type <;> rfl
  | restrict predicate =>
      cases listed : world.steps context with
      | nil => simp [perform, Context.restrict, Context.lastStep, refusal?, listed,
          Action.outcome_bind]
      | cons step rest =>
          have inOrder : (restrict predicate).InOrder (world.steps context) := by
            simp [InOrder, listed]
          exact (outcome_perform meaning _ inOrder).trans (congrArg _ silent)
  | define target thunk =>
      cases accepts : target.accepts
      · simp [perform, Context.define, Context.requireTarget, refusal?, accepts]
      · cases listed : world.steps context with
        | nil =>
            simp only [refusal?, accepts, early?]
            exact Context.outcome_define_of_empty meaning thunk accepts listed
        | cons step rest =>
            have inOrder : (define target thunk).InOrder (world.steps context) := by
              simp [InOrder, listed, accepts]
            simp only [refusal?, accepts, early?]
            exact (outcome_perform meaning _ inOrder).trans (congrArg _ silent)
  | conclude block =>
      rcases listed : (world.steps context).getLast? with _ | step
      · simp_all [perform, Context.conclude, Context.lastStep, refusal?, Action.outcome_bind]
      · have some_step : (world.steps context).isEmpty = false := by
          cases steps : world.steps context with
          | nil => simp [steps] at listed
          | cons first rest => rfl
        cases carried : step.hasBlock <;>
          simp [perform, Context.conclude, Action.outcome_bind, Context.outcome_lastStep _ listed,
            refusal?, early?, some_step, register, events, listed, carried, Action.record,
            Context.amendLast, World.modifySteps] <;> rfl

end Call

end Bindery
