import Bindery.Monadic
import Mathlib.Data.List.Forall2

set_option autoImplicit false

namespace Bindery

namespace Action

variable {F σ α β : Type}

/-- An action that starts from this state ends with such a result or with such an error. -/
def Ends (action : Action F σ α) (world : World F σ) (result : α → World F σ → Prop)
    (failure : Error → World F σ → Prop) : Prop :=
  match action.outcome world with
  | (.ok value, after) => result value after
  | (.error error, after) => failure error after

variable {result : α → World F σ → Prop} {failure : Error → World F σ → Prop}

@[simp] theorem ends_pure (value : α) (world : World F σ) :
    (pure value : Action F σ α).Ends world result failure ↔ result value world := Iff.rfl

@[simp] theorem ends_throw (error : Error) (world : World F σ) :
    (throw error : Action F σ α).Ends world result failure ↔ failure error world := Iff.rfl

@[simp] theorem ends_get {result : World F σ → World F σ → Prop} (world : World F σ) :
    (get : Action F σ (World F σ)).Ends world result failure ↔ result world world := Iff.rfl

@[simp] theorem ends_modify {result : PUnit → World F σ → Prop}
    (change : World F σ → World F σ) (world : World F σ) :
    (modify change : Action F σ PUnit).Ends world result failure ↔ result () (change world) :=
  Iff.rfl

@[simp] theorem ends_record {result : PUnit → World F σ → Prop} (event : Event)
    (world : World F σ) :
    (record event : Action F σ PUnit).Ends world result failure ↔
      result () { world with events := world.events ++ [event] } := Iff.rfl

@[simp] theorem ends_bind {result : β → World F σ → Prop} (action : Action F σ α)
    (next : α → Action F σ β) (world : World F σ) :
    (action >>= next).Ends world result failure ↔
      action.Ends world (fun value after => (next value).Ends after result failure) failure := by
  unfold Ends
  rw [outcome_bind]
  rcases action.outcome world with ⟨_ | _, _⟩ <;> rfl

@[simp] theorem ends_keepOpened (action : Action F σ α) (world : World F σ) :
    (keepOpened action).Ends world result failure ↔
      action.Ends world (fun value after => result value { after with opened := world.opened })
        fun error after => failure error { after with opened := world.opened } := by
  unfold Ends
  rw [outcome_keepOpened]
  rcases action.outcome world with ⟨_ | _, _⟩ <;> rfl

theorem Ends.mono {stronger : α → World F σ → Prop} {earlier : Error → World F σ → Prop}
    {action : Action F σ α} {world : World F σ} (ends : action.Ends world stronger earlier)
    (results : ∀ value after, stronger value after → result value after)
    (failures : ∀ error after, earlier error after → failure error after) :
    action.Ends world result failure := by
  unfold Ends at ends ⊢
  rcases outcome : action.outcome world with ⟨error | value, after⟩
  · exact failures error after (by simpa only [outcome] using ends)
  · exact results value after (by simpa only [outcome] using ends)

theorem Ends.and {other : α → World F σ → Prop} {otherFailure : Error → World F σ → Prop}
    {action : Action F σ α} {world : World F σ} (first : action.Ends world result failure)
    (second : action.Ends world other otherFailure) :
    action.Ends world (fun value after => result value after ∧ other value after)
      fun error after => failure error after ∧ otherFailure error after := by
  unfold Ends at first second ⊢
  rcases outcome : action.outcome world with ⟨error | value, after⟩
  · rw [outcome] at first second
    exact ⟨first, second⟩
  · rw [outcome] at first second
    exact ⟨first, second⟩

theorem Ends.imp {stronger : α → World F σ → Prop} {action : Action F σ α} {world : World F σ}
    (ends : action.Ends world stronger failure)
    (results : ∀ value after, stronger value after → result value after) :
    action.Ends world result failure :=
  ends.mono results fun _ _ failed => failed

theorem Ends.all {ι : Type} {results : ι → α → World F σ → Prop}
    {failures : ι → Error → World F σ → Prop} {action : Action F σ α} {world : World F σ}
    (each : ∀ index, action.Ends world (results index) (failures index)) :
    action.Ends world (fun value after => ∀ index, results index value after)
      fun error after => ∀ index, failures index error after := by
  unfold Ends at each ⊢
  generalize action.outcome world = ended at each ⊢
  rcases ended with ⟨error | value, after⟩
  · exact each
  · exact each

theorem Ends.of_forall {action : Action F σ α} {world : World F σ}
    (results : ∀ value after, result value after) (failures : ∀ error after, failure error after) :
    action.Ends world result failure := by
  unfold Ends
  rcases action.outcome world with ⟨error | value, after⟩
  · exact failures error after
  · exact results value after

theorem Ends.of_ok {action : Action F σ α} {world after : World F σ} {value : α}
    (ends : action.Ends world result failure)
    (reached : action.outcome world = (.ok value, after)) : result value after := by
  simpa only [Ends, reached] using ends

theorem Ends.of_error {action : Action F σ α} {world after : World F σ} {error : Error}
    (ends : action.Ends world result failure)
    (reached : action.outcome world = (.error error, after)) : failure error after := by
  simpa only [Ends, reached] using ends

theorem Ends.of_outcome_eq {action other : Action F σ α} {world now : World F σ}
    (ends : other.Ends now result failure)
    (same : action.outcome world = other.outcome now) : action.Ends world result failure := by
  unfold Ends at ends ⊢
  rw [same]
  exact ends

theorem Ends.exists_ok {action : Action F σ α} {world : World F σ}
    (ends : action.Ends world result fun _ _ => False) :
    ∃ value after, action.outcome world = (.ok value, after) ∧ result value after := by
  unfold Ends at ends
  rcases outcome : action.outcome world with ⟨error | value, after⟩
  · rw [outcome] at ends
    exact ends.elim
  · rw [outcome] at ends
    exact ⟨value, after, rfl, ends⟩

/-- Two continuations need to agree only from the states that they are started in. -/
theorem outcome_bind_congr {action : Action F σ α} {first second : α → Action F σ β}
    {world : World F σ}
    (agree : ∀ value after, action.outcome world = (.ok value, after) →
      (first value).outcome after = (second value).outcome after) :
    (action >>= first).outcome world = (action >>= second).outcome world := by
  rw [outcome_bind, outcome_bind]
  rcases reached : action.outcome world with ⟨error | value, after⟩
  · rfl
  · exact agree value after reached

end Action

open Bindery.Action

variable {F σ : Type} {failure : Error → World F σ → Prop} {invariant : World F σ → Prop}

/-- A loop that makes a result of each item relates results to items one by one. -/
theorem ends_collect {relation : Value F → Value F → Prop} {run : ItemAction F σ}
    {items : List (Value F)}
    (each : ∀ item ∈ items, ∀ world, invariant world →
      (run item).Ends world (fun value after => relation item value ∧ invariant after) failure)
    {world : World F σ} (holds : invariant world) :
    (collect run items).Ends world
      (fun values after => List.Forall₂ relation items values ∧ invariant after) failure := by
  induction items generalizing world with
  | nil => exact ⟨.nil, holds⟩
  | cons item items ih =>
      rw [collect, ends_bind]
      refine (each item (by simp) world holds).imp ?_
      rintro value after ⟨related, kept⟩
      rw [ends_bind]
      refine (ih (fun other member => each other (by simp [member])) kept).imp ?_
      rintro values final ⟨others, reached⟩
      exact ⟨.cons related others, reached⟩

/-- A loop that drops items keeps those for which the verdict on the item is true. -/
theorem ends_retain {verdict : Value F → Value F → Prop} {run : ItemAction F σ}
    {items : List (Value F)}
    (each : ∀ item ∈ items, ∀ world, invariant world →
      (run item).Ends world (fun value after => verdict item value ∧ invariant after) failure)
    {world : World F σ} (holds : invariant world) :
    (retain run items).Ends world
      (fun kept after => (∃ verdicts, List.Forall₂ verdict items verdicts ∧
        kept = ((items.zip verdicts).filter (·.2.isTrue)).map (·.1)) ∧ invariant after)
      failure := by
  induction items generalizing world with
  | nil => exact ⟨⟨[], .nil, rfl⟩, holds⟩
  | cons item items ih =>
      rw [retain, ends_bind]
      refine (each item (by simp) world holds).imp ?_
      rintro value after ⟨judged, kept⟩
      rw [ends_bind]
      refine (ih (fun other member => each other (by simp [member])) kept).imp ?_
      rintro _ final ⟨⟨verdicts, others, rfl⟩, reached⟩
      refine ⟨⟨value :: verdicts, .cons judged others, ?_⟩, reached⟩
      cases truth : value.isTrue <;> simp [truth]

/-- A loop that gathers the items of results joins one list for each item. -/
theorem ends_gather {relation : Value F → List (Value F) → Prop}
    {itemsOf : Value F → Action F σ (List (Value F))} {run : ItemAction F σ}
    {items : List (Value F)}
    (each : ∀ item ∈ items, ∀ world, invariant world →
      (run item).Ends world (fun value after => (itemsOf value).Ends after
        (fun values final => relation item values ∧ invariant final) failure) failure)
    {world : World F σ} (holds : invariant world) :
    (gather itemsOf run items).Ends world
      (fun values after => (∃ lists, List.Forall₂ relation items lists ∧ values = lists.flatten) ∧
        invariant after) failure := by
  induction items generalizing world with
  | nil => exact ⟨⟨[], .nil, rfl⟩, holds⟩
  | cons item items ih =>
      rw [gather, ends_bind]
      refine (each item (by simp) world holds).imp fun value after found => ?_
      rw [ends_bind]
      refine found.imp ?_
      rintro values final ⟨related, kept⟩
      rw [ends_bind]
      refine (ih (fun other member => each other (by simp [member])) kept).imp ?_
      rintro _ last ⟨⟨lists, others, rfl⟩, reached⟩
      exact ⟨⟨values :: lists, .cons related others, rfl⟩, reached⟩

/-- Two loops that gather items agree when their results give the same items. -/
theorem outcome_gather_congr {itemsOf otherItemsOf : Value F → Action F σ (List (Value F))}
    {run other : ItemAction F σ} (items : List (Value F))
    (each : ∀ item world, invariant world →
      (run item >>= itemsOf).outcome world = (other item >>= otherItemsOf).outcome world)
    (kept : ∀ item world, invariant world → invariant ((run item >>= itemsOf).outcome world).2)
    {world : World F σ} (holds : invariant world) :
    (gather itemsOf run items).outcome world = (gather otherItemsOf other items).outcome world := by
  induction items generalizing world with
  | nil => rfl
  | cons item rest ih =>
      have unfolded : ∀ itemsOf (run : ItemAction F σ), gather itemsOf run (item :: rest) =
          (run item >>= itemsOf) >>= fun first =>
            gather itemsOf run rest >>= fun others => pure (first ++ others) := by
        intro itemsOf run
        rw [gather, bind_assoc]
      rw [unfolded, unfolded, outcome_bind (run item >>= itemsOf),
        outcome_bind (other item >>= otherItemsOf), ← each item world holds]
      have reached := kept item world holds
      rcases found : (run item >>= itemsOf).outcome world with ⟨error | first, after⟩
      · rfl
      · rw [found] at reached
        simp only [outcome_bind, ih reached]

end Bindery
