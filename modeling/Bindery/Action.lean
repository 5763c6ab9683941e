import Bindery.World

set_option autoImplicit false

namespace Bindery

/-- A computation on the state of a run, which it leaves changed even when it fails. -/
abbrev Action (F σ : Type) := ExceptT Error (StateM (World F σ))

namespace Action

variable {F σ α β : Type}

def outcome (action : Action F σ α) (world : World F σ) : Except Error α × World F σ :=
  action.run world

@[simp] theorem outcome_pure (result : α) (world : World F σ) :
    (pure result : Action F σ α).outcome world = (.ok result, world) := rfl

@[simp] theorem outcome_throw (error : Error) (world : World F σ) :
    (throw error : Action F σ α).outcome world = (.error error, world) := rfl

@[simp] theorem outcome_get (world : World F σ) :
    (get : Action F σ (World F σ)).outcome world = (.ok world, world) := rfl

@[simp] theorem outcome_modify (change : World F σ → World F σ) (world : World F σ) :
    (modify change : Action F σ PUnit).outcome world = (.ok (), change world) := rfl

theorem outcome_bind (action : Action F σ α) (next : α → Action F σ β) (world : World F σ) :
    (action >>= next).outcome world =
      match action.outcome world with
      | (.ok result, after) => (next result).outcome after
      | (.error error, after) => (.error error, after) := by
  simp only [outcome, bind, ExceptT.bind, ExceptT.run, ExceptT.mk, StateT.bind]
  generalize action world = reached
  obtain ⟨_ | _, _⟩ := reached <;> rfl

/-- A handler goes on from the state in which the error left it. -/
theorem outcome_tryCatch (action : Action F σ α) (handler : Error → Action F σ α)
    (world : World F σ) :
    (tryCatch action handler).outcome world =
      match action.outcome world with
      | (.ok result, after) => (.ok result, after)
      | (.error error, after) => (handler error).outcome after := by
  simp only [outcome, tryCatch, tryCatchThe, MonadExceptOf.tryCatch, ExceptT.tryCatch,
    ExceptT.run, ExceptT.mk, bind, StateT.bind]
  generalize action world = reached
  obtain ⟨_ | _, _⟩ := reached <;> rfl

def record (event : Event) : Action F σ PUnit :=
  modify fun world => { world with events := world.events ++ [event] }

/-- Run an action, and whatever its end, restore the contexts that were open. -/
def keepOpened (action : Action F σ α) : Action F σ α :=
  fun world =>
    let (result, after) := action.outcome world
    (result, { after with opened := world.opened })

theorem outcome_keepOpened (action : Action F σ α) (world : World F σ) :
    (keepOpened action).outcome world =
      ((action.outcome world).1, { (action.outcome world).2 with opened := world.opened }) := rfl

theorem opened_keepOpened (action : Action F σ α) (world : World F σ) :
    ((keepOpened action).outcome world).2.opened = world.opened := rfl

end Action

abbrev ItemAction (F σ : Type) := Value F → Action F σ (Value F)

/-- What functions do when they are called, with an argument or without, and what the operations of
monad-like values do. An operation is given its work on an item twice: as an action, which an eager
monad runs at once, and as a continuation, which a deferred one keeps. -/
structure Meaning (F σ : Type) where
  call : F → Option (Value F) → Action F σ (Value F)
  map : Continuation F → ItemAction F σ → ItemAction F σ
  filter : Continuation F → ItemAction F σ → ItemAction F σ
  flatMap : Continuation F → ItemAction F σ → ItemAction F σ

def Callback.call {F σ : Type} (callback : Callback F) (meaning : Meaning F σ)
    (argument : Option (Value F)) : Action F σ (Value F) :=
  match callback with
  | .function body => meaning.call body argument
  | .object type => throw (.notCallable type)

end Bindery
