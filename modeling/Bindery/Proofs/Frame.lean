import Bindery.Proofs.Endings

set_option autoImplicit false

namespace Bindery

namespace Action

variable {F σ α β : Type} {invariant : World F σ → Prop}

/-- An action keeps an invariant, whatever its end. -/
def Preserves (invariant : World F σ → Prop) (action : Action F σ α) : Prop :=
  ∀ world, invariant world →
    action.Ends world (fun _ after => invariant after) fun _ after => invariant after

theorem Preserves.outcome {action : Action F σ α} (preserves : Preserves invariant action)
    {world : World F σ} (holds : invariant world) : invariant (action.outcome world).2 := by
  have ends := preserves world holds
  unfold Ends at ends
  rcases reached : action.outcome world with ⟨error | value, after⟩ <;>
    simpa only [reached] using ends

theorem Preserves.of_outcome {action : Action F σ α}
    (kept : ∀ world, invariant world → invariant (action.outcome world).2) :
    Preserves invariant action := by
  intro world holds
  have reached := kept world holds
  unfold Ends
  rcases outcome : action.outcome world with ⟨error | value, after⟩ <;>
    simpa only [outcome] using reached

theorem preserves_pure (value : α) : Preserves invariant (pure value : Action F σ α) :=
  fun _ holds => holds

theorem preserves_throw (error : Error) : Preserves invariant (throw error : Action F σ α) :=
  fun _ holds => holds

theorem preserves_get : Preserves invariant (get : Action F σ (World F σ)) :=
  fun _ holds => holds

theorem preserves_modify {change : World F σ → World F σ}
    (kept : ∀ world, invariant world → invariant (change world)) :
    Preserves invariant (modify change : Action F σ PUnit) :=
  fun world holds => kept world holds

theorem Preserves.bind {action : Action F σ α} {next : α → Action F σ β}
    (first : Preserves invariant action) (rest : ∀ value, Preserves invariant (next value)) :
    Preserves invariant (action >>= next) := by
  intro world holds
  rw [ends_bind]
  exact (first world holds).mono (fun value after kept => rest value after kept)
    fun _ _ kept => kept

theorem Preserves.ite {condition : Prop} [Decidable condition] {accepted refused : Action F σ α}
    (first : Preserves invariant accepted) (second : Preserves invariant refused) :
    Preserves invariant (if condition then accepted else refused) := by
  split
  · exact first
  · exact second

end Action

open Bindery.Action

variable {F σ : Type} {invariant : World F σ → Prop}

/-- An invariant that depends neither on what targets hold, nor on what iterators have left, nor on
what has been seen. -/
def IgnoresTargets (invariant : World F σ → Prop) : Prop :=
  ∀ world slots sequences received supplies events, invariant world →
    invariant { world with slots, sequences, received, supplies, events }

/-- An invariant that does not depend on what iterators have left. -/
def IgnoresSupplies (invariant : World F σ → Prop) : Prop :=
  ∀ world supplies, invariant world → invariant { world with supplies }

theorem IgnoresTargets.ignoresSupplies (ignores : IgnoresTargets invariant) :
    IgnoresSupplies invariant :=
  fun world supplies holds => ignores world _ _ _ supplies _ holds

theorem sequenceItems_preserves (ignores : IgnoresSupplies invariant) (value : Value F) :
    Preserves invariant (sequenceItems value : Action F σ (List (Value F))) := by
  cases value with
  | iterator number =>
      refine preserves_get.bind fun world => ?_
      cases world.supplies[number]? with
      | none => exact preserves_pure _
      | some supply =>
          refine (preserves_modify fun reached holds => ?_).bind fun _ => ?_
          · exact ignores reached (reached.supplies.set number { supply with items := [] }) holds
          · cases supply.failure with
            | none => exact preserves_pure _
            | some message => exact preserves_throw _
  | _ => exact preserves_pure _

mutual

theorem deposit_preserves (ignores : IgnoresTargets invariant) :
    ∀ (target : Target) (value : Value F),
      Preserves invariant (deposit target value : Action F σ PUnit)
  | .discard, _ => by
      simp only [deposit]
      exact preserves_pure _
  | .slot key _, value => by
      rw [deposit]
      exact preserves_modify fun world holds =>
        ignores world (world.slots.set key value) _ _ _ _ holds
  | .sequence key _, value => by
      rw [deposit]
      exact (sequenceItems_preserves ignores.ignoresSupplies value).bind fun items =>
        preserves_modify fun world holds =>
          ignores world _ (world.sequences.set key items) _ _ _ holds
  | .external key _ hook, value => by
      have recorded : ∀ world : World F σ,
          Preserves invariant (record (.captured key (world.written value)) : Action F σ PUnit) :=
        fun _ => preserves_modify fun reached holds => ignores reached _ _ _ _ _ holds
      rw [deposit]
      cases hook value.typeName value.likeness with
      | some message =>
          exact preserves_get.bind fun world => (recorded world).bind fun _ => preserves_throw _
      | none =>
          exact preserves_get.bind fun world => (recorded world).bind fun _ =>
            preserves_modify fun reached holds =>
              ignores reached _ _ (reached.received.set key (reached.receivedBy key ++ [value]))
                _ _ holds
  | .tuple parts, value => by
      cases value with
      | bundle components =>
          rw [deposit]
          exact (depositAll_preserves ignores parts components).ite (preserves_throw _)
      | _ =>
          simp only [deposit]
          exact preserves_throw _
  | .unusable _ _, _ => by
      rw [deposit]
      exact preserves_throw _

theorem depositAll_preserves (ignores : IgnoresTargets invariant) :
    ∀ (parts : List Target) (components : List (Value F)),
      Preserves invariant (depositAll parts components : Action F σ PUnit)
  | part :: parts, component :: components => by
      rw [depositAll]
      exact (deposit_preserves ignores part component).bind fun _ =>
        depositAll_preserves ignores parts components
  | [], _ => by
      rw [depositAll]
      · exact preserves_pure _
      · simp
  | _ :: _, [] => by
      rw [depositAll]
      · exact preserves_pure _
      · simp

end

mutual

theorem settle_preserves (ignores : IgnoresSupplies invariant) :
    ∀ (target : Target) (value : Value F),
      Preserves invariant (settle target value : Action F σ (Value F))
  | .sequence _ _, value => by
      rw [settle]
      exact (sequenceItems_preserves ignores value).bind fun _ => preserves_pure _
  | .tuple parts, value => by
      cases value with
      | bundle components =>
          rw [settle]
          exact ((settleAll_preserves ignores parts components).bind
            fun _ => preserves_pure _).ite (preserves_pure _)
      | _ =>
          simp only [settle]
          exact preserves_pure _
  | .discard, _ | .slot _ _, _ | .external _ _ _, _ | .unusable _ _, _ => by
      simp only [settle]
      exact preserves_pure _

theorem settleAll_preserves (ignores : IgnoresSupplies invariant) :
    ∀ (parts : List Target) (components : List (Value F)),
      Preserves invariant (settleAll parts components : Action F σ (List (Value F)))
  | part :: parts, component :: components => by
      rw [settleAll]
      exact (settle_preserves ignores part component).bind fun _ =>
        (settleAll_preserves ignores parts components).bind fun _ => preserves_pure _
  | [], _ => by
      rw [settleAll]
      · exact preserves_pure _
      · simp
  | _ :: _, [] => by
      rw [settleAll]
      · exact preserves_pure _
      · simp

end

theorem settleAndDeposit_preserves (ignores : IgnoresTargets invariant) (target : Target)
    (value : Value F) :
    Preserves invariant (settleAndDeposit target value : Action F σ (Value F)) :=
  (settle_preserves ignores.ignoresSupplies target value).bind fun settled =>
    (deposit_preserves ignores target settled).bind fun _ => preserves_pure _

theorem collect_preserves {run : ItemAction F σ} (items : List (Value F))
    (each : ∀ item, Preserves invariant (run item)) :
    Preserves invariant (collect run items) := by
  induction items with
  | nil => exact preserves_pure _
  | cons item rest ih =>
      exact (each item).bind fun _ => ih.bind fun _ => preserves_pure _

theorem retain_preserves {run : ItemAction F σ} (items : List (Value F))
    (each : ∀ item, Preserves invariant (run item)) :
    Preserves invariant (retain run items) := by
  induction items with
  | nil => exact preserves_pure _
  | cons item rest ih =>
      exact (each item).bind fun _ => ih.bind fun _ => preserves_pure _

theorem listItems_preserves (value : Value F) :
    Preserves invariant (listItems value : Action F σ (List (Value F))) := by
  cases value with
  | listMonad _ _ items => exact preserves_pure items
  | _ => exact preserves_throw _

theorem gather_preserves {itemsOf : Value F → Action F σ (List (Value F))}
    {run : ItemAction F σ} (items : List (Value F))
    (each : ∀ item, Preserves invariant (run item >>= itemsOf)) :
    Preserves invariant (gather itemsOf run items) := by
  induction items with
  | nil => exact preserves_pure _
  | cons item rest ih =>
      rw [gather, ← bind_assoc]
      exact (each item).bind fun _ => ih.bind fun _ => preserves_pure _

end Bindery
