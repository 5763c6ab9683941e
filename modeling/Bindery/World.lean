import Bindery.Error
import Bindery.Step
import Bindery.Table

set_option autoImplicit false

namespace Bindery

/-- Something that a run lets its observer see, in the order in which it happened. -/
inductive Event where
  /-- A value noted under a label, as it was at that moment. -/
  | noted (label : String) (value : Json)
  /-- A value that an external target was sent. -/
  | captured (key : String) (value : Json)
  /-- An operation on a traced monad with that many items. -/
  | applied (operation : Operation) (items : Nat)
  | stubbed (operation : Operation)
  | caught (error : Error)
  /-- The names of the innermost open context. -/
  | current (names : List String)
  /-- A block of results took the place of an earlier one. -/
  | blockReplaced
  deriving Inhabited

/-- The items that a one-shot iterator has left, and the message of the error that it ends with,
if it does not end quietly. -/
structure Supply (F : Type) where
  items : List (Value F)
  failure : Option String := none
  deriving Inhabited

/-- The state of a run. A slot without an entry is unbound; the contexts that are open are listed
innermost first. `client` is the state of the functions that descriptions are given. -/
structure World (F σ : Type) where
  slots : Table (Value F) := {}
  sequences : Table (List (Value F)) := {}
  received : Table (List (Value F)) := {}
  supplies : List (Supply F) := []
  contexts : List (List (Step F)) := []
  opened : List Nat := []
  events : List Event := []
  client : σ

namespace World

variable {F σ : Type}

def slot (world : World F σ) (key : String) : Value F :=
  (world.slots.get? key).getD .unbound

def sequence (world : World F σ) (key : String) : List (Value F) :=
  (world.sequences.get? key).getD []

def receivedBy (world : World F σ) (key : String) : List (Value F) :=
  (world.received.get? key).getD []

def steps (world : World F σ) (context : Nat) : List (Step F) :=
  (world.contexts[context]?).getD []

def step? (world : World F σ) (ref : StepRef) : Option (Step F) :=
  (world.steps ref.context)[ref.position]?

def setSlot (world : World F σ) (key : String) (value : Value F) : World F σ :=
  { world with slots := world.slots.set key value }

def setSequence (world : World F σ) (key : String) (items : List (Value F)) : World F σ :=
  { world with sequences := world.sequences.set key items }

def receive (world : World F σ) (key : String) (value : Value F) : World F σ :=
  { world with received := world.received.set key (world.receivedBy key ++ [value]) }

def modifySteps (world : World F σ) (context : Nat) (change : List (Step F) → List (Step F)) :
    World F σ :=
  { world with contexts := world.contexts.modify context change }

theorem slot_setSlot (world : World F σ) (key other : String) (value : Value F) :
    (world.setSlot key value).slot other = if other = key then value else world.slot other := by
  by_cases same : other = key <;> simp [slot, setSlot, Table.get?_set, same]

theorem sequence_setSequence (world : World F σ) (key other : String) (items : List (Value F)) :
    (world.setSequence key items).sequence other =
      if other = key then items else world.sequence other := by
  by_cases same : other = key <;> simp [sequence, setSequence, Table.get?_set, same]

theorem receivedBy_receive (world : World F σ) (key other : String) (value : Value F) :
    (world.receive key value).receivedBy other =
      if other = key then world.receivedBy key ++ [value] else world.receivedBy other := by
  by_cases same : other = key <;> simp [receivedBy, receive, Table.get?_set, same]

theorem steps_modifySteps (world : World F σ) (context other : Nat)
    (change : List (Step F) → List (Step F)) (known : context < world.contexts.length) :
    (world.modifySteps context change).steps other =
      if other = context then change (world.steps context) else world.steps other := by
  by_cases same : context = other
  · subst same
    simp [steps, modifySteps, known]
  · have distinct : ¬ other = context := fun h => same h.symm
    simp [steps, modifySteps, same, distinct]

end World

end Bindery
