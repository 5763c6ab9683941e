import Bindery.Proofs.Deferral
import Bindery.Proofs.Preservation

set_option autoImplicit false

namespace Bindery

open Bindery.Action

variable {F σ α β : Type}

/-- A call of a function: its argument, the state that it was made from, its end, and the state that
it left. -/
structure Turn (F σ : Type) where
  body : F
  argument : Option (Value F)
  before : World F σ
  answer : Except Error (Value F)
  after : World F σ

def Turn.of (call : F → Option (Value F) → Action F σ (Value F)) (body : F)
    (argument : Option (Value F)) (before : World F σ) : Turn F σ :=
  let ended := (call body argument).outcome before
  { body, argument, before, answer := ended.1, after := ended.2 }

/-- Functions that log their turns. -/
def observing (call : F → Option (Value F) → Action F σ (Value F)) :
    F → Option (Value F) → Action F (σ × List (Turn F σ)) (Value F) :=
  fun body argument world =>
    let turn := Turn.of call body argument world.withoutLog
    (turn.answer, turn.after.withLog (world.log ++ [turn]))

def Lengthens (action : Action F (σ × List (Turn F σ)) α) : Prop :=
  ∀ earlier : List (Turn F σ), Preserves (fun world => earlier <+: world.log) action

theorem Ordinary.lengthens {call : F → Option (Value F) → Action F σ (Value F)}
    {action : Action F (σ × List (Turn F σ)) α} (ordinary : Ordinary (observing call) action) :
    Lengthens action :=
  fun _ => ordinary _ (fun _ _ _ _ _ _ begun => begun) fun _ _ =>
    Preserves.of_outcome fun _ begun => begun.trans (List.prefix_append _ _)

/-- All turns so far behave. -/
def World.Orderly (behaves : Turn F σ → Prop) (world : World F (σ × List (Turn F σ))) : Prop :=
  ∀ turn ∈ world.log, behaves turn

/-- Where functions always behave, so do the turns of a run. -/
theorem Ordinary.orderly {call : F → Option (Value F) → Action F σ (Value F)}
    {action : Action F (σ × List (Turn F σ)) α} (ordinary : Ordinary (observing call) action)
    {behaves : Turn F σ → Prop}
    (each : ∀ body argument before, behaves (Turn.of call body argument before)) :
    Preserves (World.Orderly behaves) action := by
  refine ordinary _ (fun _ _ _ _ _ _ orderly => orderly) ?_
  intro body argument
  refine Preserves.of_outcome ?_
  intro world orderly turn member
  rcases List.mem_append.mp member with earlier | last
  · exact orderly turn earlier
  · rw [List.mem_singleton.mp last]
    exact each body argument world.withoutLog

/-- The turns that an action added are such. -/
def Added (such : List (Turn F σ) → Prop) (before after : World F (σ × List (Turn F σ))) : Prop :=
  ∃ turns, after.log = before.log ++ turns ∧ such turns

/-- How an action ends if all turns behave that there are then. Once a turn does not behave, nothing
more is said. -/
def Action.Runs (behaves : Turn F σ → Prop) (action : Action F (σ × List (Turn F σ)) α)
    (world : World F (σ × List (Turn F σ)))
    (result : α → World F (σ × List (Turn F σ)) → Prop)
    (failure : Error → World F (σ × List (Turn F σ)) → Prop) : Prop :=
  action.Ends world (fun value after => after.Orderly behaves → result value after)
    fun error after => after.Orderly behaves → failure error after

variable {behaves : Turn F σ → Prop} {world now middle after : World F (σ × List (Turn F σ))}
  {such more : List (Turn F σ) → Prop}

theorem Added.none (unchanged : after.log = world.log) (holds : such []) :
    Added such world after :=
  ⟨[], by rw [unchanged, List.append_nil], holds⟩

theorem Added.append {all : List (Turn F σ) → Prop} (first : Added such world middle)
    (second : Added more middle after)
    (joins : ∀ turns later, such turns → more later → all (turns ++ later)) :
    Added all world after := by
  obtain ⟨turns, logged, held⟩ := first
  obtain ⟨later, loggedLater, heldLater⟩ := second
  refine ⟨turns ++ later, ?_, joins turns later held heldLater⟩
  rw [loggedLater, logged, List.append_assoc]

theorem Added.imp (added : Added such world after) (implies : ∀ turns, such turns → more turns) :
    Added more world after := by
  obtain ⟨turns, logged, held⟩ := added
  exact ⟨turns, logged, implies turns held⟩

theorem Added.of_log_eq (added : Added such middle after) (same : middle.log = world.log) :
    Added such world after := by
  obtain ⟨turns, logged, held⟩ := added
  exact ⟨turns, same ▸ logged, held⟩

namespace Action

variable {result : α → World F (σ × List (Turn F σ)) → Prop}
  {failure : Error → World F (σ × List (Turn F σ)) → Prop}

theorem Runs.imp {stronger : α → World F (σ × List (Turn F σ)) → Prop}
    {action : Action F (σ × List (Turn F σ)) α} (runs : action.Runs behaves world stronger failure)
    (results : ∀ value after, stronger value after → result value after) :
    action.Runs behaves world result failure :=
  Ends.imp runs fun value after found orderly => results value after (found orderly)

theorem Runs.outcome {action : Action F (σ × List (Turn F σ)) α}
    (runs : action.Runs behaves world result failure) :
    action.Runs behaves world
      (fun value after => result value after ∧ action.outcome world = (.ok value, after))
      failure := by
  unfold Runs Ends at runs ⊢
  rcases reached : action.outcome world with ⟨error | value, after⟩
  · rw [reached] at runs
    exact runs
  · rw [reached] at runs
    exact fun orderly => ⟨runs orderly, rfl⟩

/-- An action that cannot fail while all turns behave has a result. -/
theorem Runs.exists_ok {action : Action F (σ × List (Turn F σ)) α}
    (runs : action.Runs behaves world result fun _ _ => False)
    (orderly : (action.outcome world).2.Orderly behaves) :
    ∃ value after, action.outcome world = (.ok value, after) ∧ result value after := by
  unfold Runs Ends at runs
  rcases reached : action.outcome world with ⟨error | value, after⟩
  · rw [reached] at runs orderly
    exact (runs orderly).elim
  · rw [reached] at runs orderly
    exact ⟨value, after, rfl, runs orderly⟩

theorem runs_pure (value : α) (holds : result value world) :
    (pure value : Action F (σ × List (Turn F σ)) α).Runs behaves world result failure :=
  fun _ => holds

theorem runs_of_ends {action : Action F (σ × List (Turn F σ)) α}
    (ends : action.Ends world result failure) : action.Runs behaves world result failure :=
  ends.mono (fun _ _ holds _ => holds) fun _ _ failed _ => failed

theorem runs_bind_of_ends {result : β → World F (σ × List (Turn F σ)) → Prop}
    {between : α → World F (σ × List (Turn F σ)) → Prop}
    {first : Action F (σ × List (Turn F σ)) α} {next : α → Action F (σ × List (Turn F σ)) β}
    (ends : first.Ends world between failure)
    (rest : ∀ value after, between value after → (next value).Runs behaves after result failure) :
    (first >>= next).Runs behaves world result failure := by
  rw [Runs, ends_bind]
  exact ends.mono rest fun _ _ failed _ => failed

/-- Once a turn does not behave, the rest of a run cannot make up for it. -/
theorem Runs.bind {result : β → World F (σ × List (Turn F σ)) → Prop}
    {between : α → World F (σ × List (Turn F σ)) → Prop}
    {first : Action F (σ × List (Turn F σ)) α} {next : α → Action F (σ × List (Turn F σ)) β}
    (runs : first.Runs behaves world between failure) (lengthens : ∀ value, Lengthens (next value))
    (rest : ∀ value after, between value after → (next value).Runs behaves after result failure) :
    (first >>= next).Runs behaves world result failure := by
  rw [Runs, ends_bind]
  refine Ends.imp runs ?_
  intro value after found
  by_cases orderly : after.Orderly behaves
  · exact rest value after (found orderly)
  · have grown := lengthens value after.log after List.prefix_rfl
    have stays : ∀ last : World F (σ × List (Turn F σ)), after.log <+: last.log →
        ¬ last.Orderly behaves := by
      intro last begun whole
      exact orderly fun turn member => whole turn (begun.subset member)
    exact grown.mono (fun _ last begun whole => absurd whole (stays last begun))
      fun _ last begun whole => absurd whole (stays last begun)

theorem Runs.bind_pure {result : β → World F (σ × List (Turn F σ)) → Prop}
    {between : α → World F (σ × List (Turn F σ)) → Prop}
    {first : Action F (σ × List (Turn F σ)) α} {make : α → β}
    (runs : first.Runs behaves world between failure)
    (results : ∀ value after, between value after → result (make value) after) :
    (first >>= fun value => pure (make value)).Runs behaves world result failure :=
  runs.bind (fun value _ => preserves_pure (make value)) fun value after found =>
    runs_pure (make value) (results value after found)

end Action

/-- A turn is the call that led from one state to another, with this argument and this answer. -/
structure Turn.Leads (turn : Turn F σ) (body : F) (argument : Option (Value F))
    (start last : World F (σ × List (Turn F σ))) (value : Value F) : Prop where
  body : turn.body = body
  argument : turn.argument = argument
  before : turn.before = start.withoutLog
  answer : turn.answer = .ok value
  after : turn.after = last.withoutLog
  log : last.log = start.log ++ [turn]

/-- A call adds one turn. Where turns that behave are answered, it does not fail. -/
theorem runs_call {call : F → Option (Value F) → Action F σ (Value F)}
    (answered : ∀ turn, behaves turn → ∃ value, turn.answer = .ok value) (body : F)
    (argument : Option (Value F)) (world : World F (σ × List (Turn F σ)))
    {failure : Error → World F (σ × List (Turn F σ)) → Prop} :
    ((Callback.function body).call (.standard (observing call)) argument).Runs behaves world
      (fun value after => ∃ turn, turn.Leads body argument world after value ∧ behaves turn)
      failure := by
  let turn := Turn.of call body argument world.withoutLog
  have called :
      ((Callback.function body).call (.standard (observing call)) argument).outcome world =
        (turn.answer, turn.after.withLog (world.log ++ [turn])) := rfl
  unfold Runs Ends
  rw [called]
  have last : turn ∈ world.log ++ [turn] := List.mem_append_right _ List.mem_cons_self
  cases ended : turn.answer with
  | error error =>
      intro orderly
      obtain ⟨value, given⟩ := answered turn (orderly turn last)
      rw [ended] at given
      cases given
  | ok value =>
      intro orderly
      exact ⟨turn, ⟨rfl, rfl, rfl, ended, rfl, rfl⟩, orderly turn last⟩

/-- A turn is answered, it leaves the steps alone, and where it is the source of a step that is
called, it gives such a value. What is said of sources is told by the function alone: one function
in two parts is two functions that do the same. -/
structure Turn.Regular (gives : Value F → Prop) (refs : List StepRef) (steps : List (Step F))
    (turn : Turn F σ) : Prop where
  answered : ∃ value, turn.answer = .ok value
  unamended : ∀ ref ∈ refs, turn.after.step? ref = turn.before.step? ref
  sources : ∀ step ∈ steps, step.source = .function turn.body → turn.argument = none →
    ∃ value, turn.answer = .ok value ∧ gives value

theorem Turn.Leads.sameSteps {turn : Turn F σ} {body : F} {argument : Option (Value F)}
    {start : World F (σ × List (Turn F σ))} {value : Value F} {refs : List StepRef}
    (leads : turn.Leads body argument now after value)
    (unamended : ∀ ref ∈ refs, turn.after.step? ref = turn.before.step? ref)
    (same : SameSteps refs start now) : SameSteps refs start after := by
  intro ref member
  have kept := unamended ref member
  rw [leads.after, leads.before] at kept
  exact kept.trans (same ref member)

/-- Whether the source, the qualifiers and the block, if there is one, are functions. -/
structure Step.Callable (step : Step F) : Prop where
  source : ∃ body, step.source = .function body
  qualifiers : ∀ qualifier ∈ step.qualifiers, ∃ body, qualifier.callback = .function body
  block : step.hasBlock = true → ∃ body, step.block = .function body

theorem ends_currentStep {ref : StepRef} {step : Step F} {world : World F σ}
    {failure : Error → World F σ → Prop} (found : world.step? ref = some step) :
    (currentStep ref).Ends world (fun current after => step = current ∧ world = after)
      failure := by
  unfold Ends
  rw [outcome_currentStep found]
  exact ⟨rfl, rfl⟩

/-- Functions that count the calls of all of them. Sources draw a value from the count, and all
other functions give its parity. -/
def countingCall (drawn : Nat → Value Bool) (isSource : Bool) (_ : Option (Value Bool)) :
    Action Bool Nat (Value Bool) := do
  let calls := (← get).client
  modify fun world => { world with client := calls + 1 }
  return if isSource then drawn calls else .int (calls % 2)

theorem regular_countingCall (drawn : Nat → Value Bool) {gives : Value Bool → Prop}
    (each : ∀ calls, gives (drawn calls)) {steps : List (Step Bool)}
    (sources : ∀ step ∈ steps, step.source = .function true) (refs : List StepRef) (body : Bool)
    (argument : Option (Value Bool)) (before : World Bool Nat) :
    (Turn.of (countingCall drawn) body argument before).Regular gives refs steps := by
  refine ⟨⟨_, rfl⟩, fun _ _ => rfl, ?_⟩
  intro step member source _
  rw [sources step member] at source
  cases source
  exact ⟨_, rfl, each before.client⟩

end Bindery
