import Bindery.Proofs.Preservation
import Bindery.Proofs.Registration

set_option autoImplicit false

namespace Bindery

variable {F σ α : Type}

/-- A program that uses the library: it registers steps, and it describes, plans and chains
comprehensions inside one another. All forms but the first go on with what they ended with, be it an
error. The functions that a client registers are clients too. -/
inductive Client (F σ : Type) where
  | finish (result : Except Error (Value F))
  | look (next : World F σ → Client F σ)
  /-- Work that is not the library's: it leaves registered steps and open contexts alone. -/
  | work (own : Action F σ (Value F)) (next : Except Error (Value F) → Client F σ)
  | call (callback : Callback F) (argument : Option (Value F))
      (next : Except Error (Value F) → Client F σ)
  /-- Make a context and leave it closed. -/
  | create (next : Except Error Nat → Client F σ)
  /-- Make a call on a named context, or on the innermost open one. -/
  | register (named : Option Nat) (request : Call F) (next : Except Error PUnit → Client F σ)
  | within (body : Nat → Client F σ) (next : Except Error (Value F) → Client F σ)
  /-- Run a description and keep references to its steps. -/
  | plan (block : Nat → Client F σ) (next : Except Error (List StepRef) → Client F σ)
  | chain (block : Nat → Client F σ) (next : Except Error (Value F) → Client F σ)
  | chainSteps (refs : List StepRef) (next : Except Error (Value F) → Client F σ)
  /-- Call the source of a step and apply its qualifiers. -/
  | generate (ref : StepRef) (next : Except Error (Value F) → Client F σ)
  | force (fuel : Nat) (value : Value F) (next : Except Error (List (Value F)) → Client F σ)

/-- Where a run has come to: the first moment of a function or of a block, a moment of a client, or
a call that is about to be made on a context. -/
inductive Place (F : Type) where
  | function
  | block
  | between
  | sent (named : Option Nat) (context : Nat) (request : Call F)

/-- What there is to see at a moment of a run. `around` are the contexts that the program text in
execution stands in, innermost first; where a function is run, they are those of the client that had
it run. `opened` are the contexts that are in fact open. -/
structure Moment (F : Type) where
  place : Place F
  around : List Nat
  opened : List Nat
  contexts : List (List (Step F))
  history : List (Nat × Call F)

/-- The record of a run: the successful calls, each with its context, in the order in which they
were made, and the moments so far. No client can read it or write it. -/
structure Record (F : Type) where
  history : List (Nat × Call F) := []
  moments : List (Moment F) := []

/-- The calls of a history that were made on one context. -/
def callsOn (context : Nat) (history : List (Nat × Call F)) : List (Call F) :=
  (history.filter (·.1 = context)).map (·.2)

namespace World

def withRecord (world : World F σ) (record : Record F) : World F (σ × Record F) :=
  { world with client := (world.client, record) }

def record (world : World F (σ × Record F)) : Record F :=
  world.client.2

/-- The state with a new context as the innermost open one. -/
def opening (world : World F σ) : World F σ :=
  { world with
    contexts := world.contexts ++ [[]]
    opened := world.contexts.length :: world.opened }

def withoutRecord (world : World F (σ × Record F)) : World F σ :=
  { world with client := world.client.1 }

def amendRecord (world : World F (σ × Record F)) (change : Record F → Record F) :
    World F (σ × Record F) :=
  { world with client := (world.client.1, change world.client.2) }

end World

def Action.attempt (action : Action F σ α) : Action F σ (Except Error α) :=
  fun world =>
    let (ended, after) := action.outcome world
    (.ok ended, after)

theorem Action.attempt_preserves {invariant : World F σ → Prop} {action : Action F σ α}
    (preserves : Action.Preserves invariant action) :
    Action.Preserves invariant (Action.attempt action) :=
  Action.Preserves.of_outcome fun _ holds => preserves.outcome holds

namespace Client

/-- Work that leaves registered steps, open contexts and the record as they are. -/
def aside (own : Action F σ α) : Action F (σ × Record F) α :=
  fun world =>
    let (ended, after) := own.outcome world.withoutRecord
    (ended, { after with contexts := world.contexts, opened := world.opened }.withRecord
      world.record)

def note (place : Place F) (around : List Nat) : Action F (σ × Record F) PUnit :=
  modify fun world => world.amendRecord fun record =>
    { record with
      moments := record.moments ++
        [{ place, around, opened := world.opened, contexts := world.contexts,
            history := record.history }] }

def enter (place : Nat) (context : Nat) (request : Call F) : Action F (σ × Record F) PUnit :=
  modify fun world => world.amendRecord fun record =>
    { record with history := record.history.insertIdx place (context, request) }

def requireContext (context : Nat) : Action F σ PUnit := do
  if context < (← get).contexts.length then return ()
  else throw (.fault (.unknown .context (toString context)))

/-- The context that a call is made on. A context that is named has to be there. -/
def locate (named : Option Nat) (verb : Verb) : Action F σ Nat := do
  named.forM requireContext
  Context.resolve verb named

/-- The context that is found is the one that is named, or else the innermost open one. Finding it
changes nothing. -/
theorem ends_locate (named : Option Nat) (verb : Verb) (world : World F σ) :
    (locate named verb).Ends world
      (fun context after => after = world ∧
        (named = some context ∧ context < world.contexts.length ∨
          named = none ∧ world.opened.head? = some context))
      fun _ after => after = world := by
  cases named with
  | none =>
      change (Context.innermost verb.text).Ends world _ _
      rw [Context.innermost, Action.ends_bind, Action.ends_get]
      cases world.opened with
      | nil => exact rfl
      | cons context outer => exact ⟨rfl, .inr ⟨rfl, rfl⟩⟩
  | some context =>
      change (requireContext context >>= fun _ => return context).Ends world _ _
      rw [requireContext, bind_assoc, Action.ends_bind, Action.ends_get]
      split
      · next exists_ => exact ⟨rfl, .inl ⟨rfl, exists_⟩⟩
      · exact rfl

/-- Make a call, and enter it into the history if it succeeds, at the place at which it was
made. -/
def submit (meaning : Meaning F (σ × Record F)) (around : List Nat) (named : Option Nat)
    (request : Call F) : Action F (σ × Record F) PUnit := do
  let context ← locate named request.verb
  note (.sent named context request) around
  let place := (← get).record.history.length
  request.perform meaning context
  enter place context request

/-- Run a client that stands in the given contexts. `call` says what functions do where they are run
from such contexts. -/
def run (call : List Nat → F → Option (Value F) → Action F (σ × Record F) (Value F)) :
    List Nat → Client F σ → Action F (σ × Record F) (Value F)
  | around, .finish result => do
      note .between around
      MonadExcept.ofExcept result
  | around, .look next => do
      note .between around
      let world ← get
      run call around (next world.withoutRecord)
  | around, .work own next => do
      note .between around
      let ended ← Action.attempt (aside own)
      run call around (next ended)
  | around, .call callback argument next => do
      note .between around
      let ended ← Action.attempt (callback.call (.standard (call around)) argument)
      run call around (next ended)
  | around, .create next => do
      note .between around
      let ended ← Action.attempt Context.create
      run call around (next ended)
  | around, .register named request next => do
      note .between around
      let ended ← Action.attempt (submit (.standard (call around)) around named request)
      run call around (next ended)
  | around, .within body next => do
      note .between around
      let ended ← Action.attempt (Context.withNew fun context => do
        note .block (context :: around)
        run call (context :: around) (body context))
      run call around (next ended)
  | around, .plan block next => do
      note .between around
      let ended ← Action.attempt (Description.steps fun context => do
        note .block (context :: around)
        let _ ← run call (context :: around) (block context)
        return ())
      run call around (next ended)
  | around, .chain block next => do
      note .between around
      let ended ← Action.attempt (Description.chain (.standard (call around)) fun context => do
        note .block (context :: around)
        let _ ← run call (context :: around) (block context)
        return ())
      run call around (next ended)
  | around, .chainSteps refs next => do
      note .between around
      let ended ← Action.attempt (Bindery.chainSteps (.standard (call around)) refs)
      run call around (next ended)
  | around, .generate ref next => do
      note .between around
      let ended ← Action.attempt (do
        let step ← currentStep ref
        step.generate (.standard (call around)) ref.position)
      run call around (next ended)
  | around, .force fuel value next => do
      note .between around
      let ended ← Action.attempt (value.force (.standard (call around)) fuel)
      run call around (next ended)

/-- What functions do where they are run from the given contexts, when calls nest no deeper than the
fuel says. `text` gives the client that a function is. -/
def answer (text : F → Option (Value F) → Client F σ) :
    Nat → List Nat → F → Option (Value F) → Action F (σ × Record F) (Value F)
  | 0, _, _, _ => throw .exhausted
  | fuel + 1, around, body, argument => do
      note .function around
      run (answer text fuel) around (text body argument)

/-- A family of invariants, one for each index and for each list of contexts around, that is kept by
what clients do besides running functions. A call is made where functions keep them all. -/
structure Invariant {ι : Type} (invariant : ι → List Nat → World F (σ × Record F) → Prop) :
    Prop where
  ignores : ∀ index around, IgnoresTargets (invariant index around)
  between : ∀ index around, Action.Preserves (invariant index around) (note .between around)
  function : ∀ index around, Action.Preserves (invariant index around) (note .function around)
  aside : ∀ index around {α : Type} (own : Action F σ α),
    Action.Preserves (invariant index around) (aside own)
  create : ∀ index around, Action.Preserves (invariant index around) Context.create
  submit : ∀ {meaning : Meaning F (σ × Record F)} {around : List Nat},
    (∀ index (callback : Callback F) argument,
      Action.Preserves (invariant index around) (callback.call meaning argument)) →
    ∀ index named request,
      Action.Preserves (invariant index around) (submit meaning around named request)
  opens : ∀ index around (world : World F (σ × Record F)), invariant index around world →
    invariant index (world.contexts.length :: around)
      ((note .block (world.contexts.length :: around)).outcome world.opening).2
  closes : ∀ index around context (world after : World F (σ × Record F)),
    invariant index around world → invariant index (context :: around) after →
      invariant index around { after with opened := world.opened }

namespace Invariant

variable {ι : Type} {invariant : ι → List Nat → World F (σ × Record F) → Prop}

theorem withNew (kept : Invariant invariant) (index : ι) (around : List Nat)
    {body : Nat → Action F (σ × Record F) α}
    (inside : ∀ context, Action.Preserves (invariant index (context :: around)) (body context)) :
    Action.Preserves (invariant index around) (Context.withNew fun context => do
      note .block (context :: around)
      body context) := by
  intro world holds
  have ran := inside world.contexts.length _ (kept.opens index around world holds)
  rw [Context.withNew, Action.ends_keepOpened]
  exact ran.mono (fun _ after reached => kept.closes index around _ world after holds reached)
    fun _ after reached => kept.closes index around _ world after holds reached

theorem steps (kept : Invariant invariant) (index : ι) (around : List Nat)
    {block : Nat → Action F (σ × Record F) α}
    (inside : ∀ context, Action.Preserves (invariant index (context :: around)) (block context)) :
    Action.Preserves (invariant index around) (Description.steps fun context => do
      note .block (context :: around)
      let _ ← block context
      return ()) := by
  have described := kept.withNew index around fun context =>
    (inside context).bind fun _ => Action.preserves_pure context
  refine Action.Preserves.bind ?_ fun context =>
    Action.preserves_get.bind fun _ => Action.preserves_pure _
  simpa only [bind_assoc, pure_bind] using described

variable {call : List Nat → F → Option (Value F) → Action F (σ × Record F) (Value F)}

theorem run (kept : Invariant invariant)
    (calls : ∀ index around body argument,
      Action.Preserves (invariant index around) (call around body argument))
    (client : Client F σ) (index : ι) (around : List Nat) :
    Action.Preserves (invariant index around) (client.run call around) := by
  have functions : ∀ around index (callback : Callback F) argument,
      Action.Preserves (invariant index around)
        (callback.call (.standard (call around)) argument) :=
    fun around index callback argument =>
      ordinary_call callback argument _ (kept.ignores index around) (calls index around)
  have continued : ∀ {β : Type} {around : List Nat} {action : Action F (σ × Record F) β}
      {next : Except Error β → Client F σ},
      (∀ ended around, Action.Preserves (invariant index around) ((next ended).run call around)) →
        Action.Preserves (invariant index around) action →
        Action.Preserves (invariant index around) (do
          note .between around
          let ended ← Action.attempt action
          (next ended).run call around) :=
    fun later used => (kept.between index _).bind fun _ =>
      (Action.attempt_preserves used).bind fun ended => later ended _
  induction client generalizing around with
  | finish result =>
      refine (kept.between index around).bind fun _ => ?_
      cases result with
      | error error => exact Action.preserves_throw error
      | ok value => exact Action.preserves_pure value
  | look next ih =>
      exact (kept.between index around).bind fun _ => Action.preserves_get.bind fun world =>
        ih world.withoutRecord around
  | work own next ih => exact continued ih (kept.aside index around own)
  | call callback argument next ih =>
      exact continued ih (functions around index callback argument)
  | create next ih => exact continued ih (kept.create index around)
  | register named request next ih =>
      exact continued ih (kept.submit (functions around) index named request)
  | within body next inside ih =>
      exact continued ih
        (kept.withNew index around fun context => inside context (context :: around))
  | plan block next inside ih =>
      exact continued ih
        (kept.steps index around fun context => inside context (context :: around))
  | chain block next inside ih =>
      exact continued ih
        ((kept.steps index around fun context => inside context (context :: around)).bind
          fun refs => ordinary_chainSteps refs _ (kept.ignores index around) (calls index around))
  | chainSteps refs next ih =>
      exact continued ih
        (ordinary_chainSteps refs _ (kept.ignores index around) (calls index around))
  | generate ref next ih =>
      exact continued ih ((currentStep_preserves ref).bind fun step =>
        ordinary_generate _ step _ (kept.ignores index around) (calls index around))
  | force fuel value next ih =>
      exact continued ih
        (Value.ordinary_force fuel value _ (kept.ignores index around) (calls index around))

theorem answer (kept : Invariant invariant) (text : F → Option (Value F) → Client F σ) (fuel : Nat)
    (index : ι) (around : List Nat) (body : F) (argument : Option (Value F)) :
    Action.Preserves (invariant index around) (Client.answer text fuel around body argument) := by
  induction fuel generalizing index around body argument with
  | zero => exact Action.preserves_throw _
  | succ fuel ih =>
      exact (kept.function index around).bind fun _ =>
        kept.run ih (text body argument) index around

end Invariant

end Client

end Bindery
