import Bindery.Proofs.Client
import Bindery.Proofs.Fitting

set_option autoImplicit false

namespace Bindery

open Bindery.Action

variable {F σ α : Type}

/-- What is to be seen at a moment where contexts are opened and closed in order: the open contexts
are those around. The context of a block that begins was made just now and has no steps, and a call
that names no context is made on the innermost one. -/
structure Moment.Nested (moment : Moment F) : Prop where
  opened : moment.opened = moment.around
  block : moment.place = .block → ∃ context outer, moment.around = context :: outer ∧
    moment.contexts.length = context + 1 ∧ moment.contexts[context]? = some []
  sent : ∀ context request, moment.place = .sent none context request →
    moment.around.head? = some context

/-- The open contexts are those around, and so they were at each moment that is recorded. -/
structure Stands (around : List Nat) (world : World F (σ × Record F)) : Prop where
  opened : world.opened = around
  nested : ∀ moment ∈ world.record.moments, moment.Nested

theorem stands_ignoresTargets (around : List Nat) :
    IgnoresTargets (Stands (F := F) (σ := σ) around) :=
  fun _ _ _ _ _ _ stands => ⟨stands.opened, stands.nested⟩

variable {around : List Nat}

theorem note_stands (place : Place F)
    (sent : ∀ context request, place = .sent none context request → around.head? = some context)
    {world : World F (σ × Record F)} (stands : Stands around world)
    (block : place = .block → ∃ context outer, around = context :: outer ∧
      world.contexts.length = context + 1 ∧ world.contexts[context]? = some []) :
    (Client.note place around : Action F (σ × Record F) PUnit).Ends world
      (fun _ after => Stands around after) fun _ after => Stands around after := by
  refine ⟨stands.opened, ?_⟩
  intro moment member
  rcases List.mem_append.mp member with earlier | now
  · exact stands.nested moment earlier
  · cases List.mem_singleton.mp now
    exact ⟨stands.opened, block, sent⟩

theorem Stands.opening {world : World F (σ × Record F)} (stands : Stands around world) :
    Stands (world.contexts.length :: around)
      ((Client.note .block (world.contexts.length :: around)).outcome world.opening).2 := by
  have started : Stands (world.contexts.length :: around) world.opening :=
    ⟨congrArg (world.contexts.length :: ·) stands.opened, stands.nested⟩
  exact note_stands .block (by simp) started fun _ =>
    ⟨world.contexts.length, around, rfl, by simp [World.opening]⟩

theorem submit_preserves {meaning : Meaning F (σ × Record F)}
    (functions : ∀ (callback : Callback F) argument,
      Preserves (Stands around) (callback.call meaning argument))
    (named : Option Nat) (request : Call F) :
    Preserves (Stands around) (Client.submit meaning around named request) := by
  have made : ∀ context,
      (∀ other same, Place.sent named context request = .sent none other same →
        around.head? = some other) →
      Preserves (Stands around) (do
        Client.note (.sent named context request) around
        let place := (← get).record.history.length
        request.perform meaning context
        Client.enter place context request) := by
    intro context sent
    refine Preserves.bind ?_ fun _ => preserves_get.bind fun world => Preserves.bind ?_ fun _ => ?_
    · intro world stands
      exact note_stands _ sent stands (by simp)
    · exact Call.preserves_perform (stands_ignoresTargets around) context
        (fun _ stands => ⟨stands.opened, stands.nested⟩) functions
    · exact preserves_modify fun _ stands => ⟨stands.opened, stands.nested⟩
  intro world stands
  rw [Client.submit, ends_bind]
  refine (Client.ends_locate named request.verb world).mono ?_ fun _ _ same => same ▸ stands
  rintro context _ ⟨rfl, found⟩
  refine made context ?_ _ stands
  rcases found with ⟨rfl, -⟩ | ⟨rfl, innermost⟩
  · simp
  · rw [stands.opened] at innermost
    simpa using innermost

theorem stands_invariant :
    Client.Invariant fun (_ : Unit) around => Stands (F := F) (σ := σ) around where
  ignores _ around := stands_ignoresTargets around
  between _ around world stands := note_stands .between (by simp) stands (by simp)
  function _ around world stands := note_stands .function (by simp) stands (by simp)
  aside _ around _ own := Preserves.of_outcome fun _ stands => ⟨stands.opened, stands.nested⟩
  create _ around := preserves_get.bind fun _ =>
    (preserves_modify fun _ stands => ⟨stands.opened, stands.nested⟩).bind fun _ => preserves_pure _
  submit functions _ named request := submit_preserves (functions ()) named request
  opens _ _ _ stands := stands.opening
  closes _ _ _ _ _ stands reached := ⟨stands.opened, reached.nested⟩

namespace Call

/-- The call is a definition where there are no steps, and its own function fails with the error. -/
def FailsEarly (meaning : Meaning F σ) (call : Call F) (context : Nat) (world : World F σ)
    (error : Error) : Prop :=
  call.refusal? (world.steps context) = none ∧ ∃ target thunk,
    call.early? (world.steps context) = some (target, thunk) ∧
      ((thunk.call meaning none).outcome world).1 = .error error

/-- What becomes of a call that names no context. Where no context is open it fails and changes
nothing. Otherwise it is a call on the innermost one, and other contexts keep their steps, unless a
function is run in which more calls may be made. The error for closed contexts arises in the first
case only, save where that function fails with one by itself. -/
structure GoesInnermost (meaning : Meaning F σ) (call : Call F) (world : World F σ) : Prop where
  closed : world.opened = [] → (call.make meaning none).outcome world =
    (.error (.outsideDescription call.verb.text), world)
  opened : ∀ context outer, world.opened = context :: outer →
    (call.make meaning none).outcome world = (call.perform meaning context).outcome world
  others : ∀ context outer, world.opened = context :: outer →
    call.early? (world.steps context) = none → ∀ other, other ≠ context →
      ((call.make meaning none).outcome world).2.steps other = world.steps other
  outside : (∃ error, ((call.make meaning none).outcome world).1 = .error error ∧
      error.kind = .outsideDescription) ↔
    world.opened = [] ∨ ∃ context outer error, world.opened = context :: outer ∧
      call.FailsEarly meaning context world error ∧ error.kind = .outsideDescription

theorem steps_register_of_ne (call : Call F) {context other : Nat} (distinct : other ≠ context)
    (world : World F σ) : (call.register context world).steps other = world.steps other := by
  have apart : ¬ context = other := fun same => distinct same.symm
  simp [register, World.steps, World.modifySteps, apart]

theorem kind_of_refusal {call : Call F} {steps : List (Step F)} {error : Error}
    (refused : call.refusal? steps = some error) :
    error.kind = .type ∨ error.kind = .order := by
  cases call with
  | draw target source => cases source <;> grind [refusal?, Error.kind]
  | restrict predicate => grind [refusal?, Error.kind]
  | define target thunk => grind [refusal?, Error.kind]
  | conclude block => grind [refusal?, Error.kind]

/-- A call on a context fails as one for closed contexts only where it runs a function that does. -/
theorem outside_perform_iff (meaning : Meaning F σ) (call : Call F) (context : Nat)
    (world : World F σ) :
    (∃ error, ((call.perform meaning context).outcome world).1 = .error error ∧
        error.kind = .outsideDescription) ↔
      ∃ error, call.FailsEarly meaning context world error ∧ error.kind = .outsideDescription := by
  rw [outcome_perform_eq]
  cases refused : call.refusal? (world.steps context) with
  | some error =>
      rcases kind_of_refusal refused with kind | kind <;> simp [FailsEarly, refused, kind]
  | none =>
      rcases early : call.early? (world.steps context) with _ | ⟨target, thunk⟩
      · simp [FailsEarly, early]
      · have fails : ∀ error, call.FailsEarly meaning context world error ↔
            ((thunk.call meaning none).outcome world).1 = .error error := by
          simp [FailsEarly, refused, early]
        simp only [fails, outcome_bind]
        rcases called : (thunk.call meaning none).outcome world with ⟨failed | value, after⟩
        · simp
        · have deposited := ends_deposit_isDeposit target value after
          unfold Ends at deposited
          rcases ended : (deposit target value).outcome after with ⟨failed | _, last⟩
          · rw [ended] at deposited
            rcases deposited with kind | kind | kind <;> simp [kind, ended]
          · simp [ended]

theorem goesInnermost (meaning : Meaning F σ) (call : Call F) (world : World F σ) :
    call.GoesInnermost meaning world := by
  have closed : world.opened = [] → (call.make meaning none).outcome world =
      (.error (.outsideDescription call.verb.text), world) := by
    intro none_open
    simp [make, Context.resolve, Context.innermost, outcome_bind, none_open]
  have opened : ∀ context outer, world.opened = context :: outer →
      (call.make meaning none).outcome world =
        (call.perform meaning context).outcome world := by
    intro context outer some_open
    simp [make, Context.resolve, Context.innermost, outcome_bind, some_open]
  refine ⟨closed, opened, ?_, ?_⟩
  · intro context outer some_open late other distinct
    rw [opened context outer some_open, outcome_perform_eq, late]
    cases call.refusal? (world.steps context) with
    | some error => rfl
    | none => exact call.steps_register_of_ne distinct world
  · cases some_open : world.opened with
    | nil => simp [closed some_open, Error.kind]
    | cons context outer =>
        rw [opened context outer some_open, outside_perform_iff]
        simp

end Call

/-- Contexts are opened and closed in order. Whatever a client does and whatever fails, it leaves
the open contexts as it found them, and at every moment of its run those are open that the program
text in execution stands in. And a call that names no context goes to the innermost one. -/
theorem Client.opened_eq_around (text : F → Option (Value F) → Client F σ) (fuel : Nat)
    (client : Client F σ) (start : World F σ) :
    (let ended := ((client.run (answer text fuel) start.opened).outcome (start.withRecord {})).2;
      ended.opened = start.opened ∧ ∀ moment ∈ ended.record.moments, moment.Nested) ∧
    ∀ (meaning : Meaning F (σ × Record F)) (call : Call F) (world : World F (σ × Record F)),
      call.GoesInnermost meaning world := by
  refine ⟨?_, Call.goesInnermost⟩
  have stands : Stands start.opened (start.withRecord {}) := ⟨rfl, nofun⟩
  have kept := (stands_invariant.run (stands_invariant.answer text fuel) client ()
    start.opened).outcome stands
  exact ⟨kept.opened, kept.nested⟩

/-- Draws before, inside and after a block that fails, and one where no context is open. -/
def drawsAround : Client Unit Unit :=
  .within (fun _ =>
    .register none (.draw (.slot "x" none) (.function ())) fun _ =>
      .within (fun _ =>
        .register none (.draw (.slot "y" none) (.function ())) fun _ =>
          .finish (.error .exhausted)) fun _ =>
        .register none (.draw (.slot "z" none) (.function ())) fun _ =>
          .finish (.ok .null)) fun _ =>
    .register none (.draw (.slot "w" none) (.function ())) fun ended =>
      .finish (ended.map fun _ => .null)

example :
    let ended := (drawsAround.run (Client.answer (fun _ _ => .finish (.ok .null)) 0) []).outcome
      (World.withRecord { client := () } {})
    ended.1 = .error (.outsideDescription "pick") ∧
      ended.2.contexts.map (·.map (·.ownTarget)) =
        [[.slot "x" none, .slot "z" none], [.slot "y" none]] :=
  ⟨rfl, rfl⟩

end Bindery
