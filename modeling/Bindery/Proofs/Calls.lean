import Bindery.Monadic

set_option autoImplicit false

namespace Bindery

variable {F σ ν : Type}

namespace World

def withLog (world : World F σ) (log : List ν) : World F (σ × List ν) :=
  { world with client := (world.client, log) }

/-- The notes that were made before a state was reached. -/
def log (world : World F (σ × List ν)) : List ν :=
  world.client.2

def withoutLog (world : World F (σ × List ν)) : World F σ :=
  { world with client := world.client.1 }

end World

/-- Functions that note each call of theirs, with its argument and its end. -/
def logging (note : F → Option (Value F) → Except Error (Value F) → ν)
    (call : F → Option (Value F) → Action F σ (Value F)) :
    F → Option (Value F) → Action F (σ × List ν) (Value F) :=
  fun body argument world =>
    let (result, after) := (call body argument).outcome world.withoutLog
    (result, after.withLog (world.log ++ [note body argument result]))

theorem outcome_logging (note : F → Option (Value F) → Except Error (Value F) → ν)
    (call : F → Option (Value F) → Action F σ (Value F)) (body : F)
    (argument : Option (Value F)) (world : World F (σ × List ν)) :
    (logging note call body argument).outcome world =
      (((call body argument).outcome world.withoutLog).1,
        ((call body argument).outcome world.withoutLog).2.withLog
          (world.log ++
            [note body argument ((call body argument).outcome world.withoutLog).1])) := rfl

def Callback.notes (note : F → Option (Value F) → Except Error (Value F) → ν)
    (callback : Callback F) (argument : Option (Value F)) (result : Except Error (Value F)) :
    List ν :=
  match callback with
  | .function body => [note body argument result]
  | .object _ => []

theorem outcome_call_logging (note : F → Option (Value F) → Except Error (Value F) → ν)
    (call : F → Option (Value F) → Action F σ (Value F)) (callback : Callback F)
    (argument : Option (Value F)) (world : World F (σ × List ν)) :
    (callback.call (.standard (logging note call)) argument).outcome world =
      (((callback.call (.standard call) argument).outcome world.withoutLog).1,
        ((callback.call (.standard call) argument).outcome world.withoutLog).2.withLog
          (world.log ++ callback.notes note argument
            ((callback.call (.standard call) argument).outcome world.withoutLog).1)) := by
  cases callback with
  | function body => rfl
  | object type =>
      simp only [Callback.notes, List.append_nil]
      rfl

end Bindery
