import Bindery.Proofs.Endings
import Bindery.Deposit

set_option autoImplicit false

namespace Bindery

namespace Target

variable {F : Type}

mutual

/-- Whether a value fits a target, and `leaf` holds wherever a part of the value meets a target
that is no tuple. -/
def Takes (leaf : Target → Value F → Prop) : Target → Value F → Prop
  | .tuple parts, .bundle components => TakesAll leaf parts components
  | .tuple _, _ => False
  | part, value => leaf part value

def TakesAll (leaf : Target → Value F → Prop) : List Target → List (Value F) → Prop
  | [], [] => True
  | part :: parts, component :: components =>
      Takes leaf part component ∧ TakesAll leaf parts components
  | _, _ => False

end

/-- Whether a value fits a target: it may be anything where the target is no tuple. -/
abbrev Fits (target : Target) (value : Value F) : Prop :=
  Takes (fun _ _ => True) target value

mutual

/-- Whether a target consists of slots and of parts that discard. -/
def SlotsOnly : Target → Prop
  | .discard => True
  | .slot _ _ => True
  | .tuple parts => AllSlotsOnly parts
  | _ => False

def AllSlotsOnly : List Target → Prop
  | [] => True
  | part :: parts => SlotsOnly part ∧ AllSlotsOnly parts

end

mutual

def slotKeys : Target → List String
  | .slot key _ => [key]
  | .tuple parts => allSlotKeys parts
  | _ => []

def allSlotKeys : List Target → List String
  | [] => []
  | part :: parts => slotKeys part ++ allSlotKeys parts

end

mutual

/-- What the slots of a target are bound to by a value. -/
def bindings : Target → Value F → List (String × Value F)
  | .slot key _, value => [(key, value)]
  | .tuple parts, .bundle components => allBindings parts components
  | _, _ => []

def allBindings : List Target → List (Value F) → List (String × Value F)
  | part :: parts, component :: components =>
      bindings part component ++ allBindings parts components
  | _, _ => []

end

theorem takes_tuple_iff (leaf : Target → Value F → Prop) (parts : List Target) (value : Value F) :
    Takes leaf (.tuple parts) value ↔
      ∃ components, value = .bundle components ∧ TakesAll leaf parts components := by
  cases value <;> simp [Takes]

theorem TakesAll.length_eq {leaf : Target → Value F → Prop} :
    ∀ {parts : List Target} {components : List (Value F)},
      TakesAll leaf parts components → components.length = parts.length
  | [], [], _ => rfl
  | _ :: _, _ :: _, takes => by
      simp only [List.length_cons, takes.2.length_eq]
  | [], _ :: _, takes => takes.elim
  | _ :: _, [], takes => takes.elim

@[simp] theorem takes_pair (leaf : Target → Value F → Prop) (first second : Target)
    (left right : Value F) :
    Takes leaf (.tuple [first, second]) (.bundle [left, right]) ↔
      Takes leaf first left ∧ Takes leaf second right := by
  simp [Takes, TakesAll]

@[simp] theorem bindings_pair (first second : Target) (left right : Value F) :
    bindings (.tuple [first, second]) (.bundle [left, right]) =
      bindings first left ++ bindings second right := by
  simp [bindings, allBindings]

@[simp] theorem slotKeys_pair (first second : Target) :
    slotKeys (.tuple [first, second]) = slotKeys first ++ slotKeys second := by
  simp [slotKeys, allSlotKeys]

@[simp] theorem slotsOnly_pair (first second : Target) :
    SlotsOnly (.tuple [first, second]) ↔ SlotsOnly first ∧ SlotsOnly second := by
  simp [SlotsOnly, AllSlotsOnly]

mutual

/-- A value that fits binds each slot of the target, in order. -/
theorem keys_bindings : ∀ (target : Target) (value : Value F), target.Fits value →
    (target.bindings value).map (·.1) = target.slotKeys
  | .discard, _, _ | .slot _ _, _, _ | .sequence _ _, _, _ | .external _ _ _, _, _
  | .unusable _ _, _, _ => by simp [bindings, slotKeys]
  | .tuple parts, value, fits => by
      obtain ⟨components, rfl, takes⟩ := (takes_tuple_iff _ parts value).mp fits
      exact keys_allBindings parts components takes

theorem keys_allBindings : ∀ (parts : List Target) (components : List (Value F)),
    TakesAll (fun _ _ => True) parts components →
      (allBindings parts components).map (·.1) = allSlotKeys parts
  | [], [], _ => rfl
  | part :: parts, component :: components, takes => by
      rw [allBindings, allSlotKeys, List.map_append, keys_bindings part component takes.1,
        keys_allBindings parts components takes.2]
  | [], _ :: _, takes => takes.elim
  | _ :: _, [], takes => takes.elim

end

mutual

theorem hasSequence_of_slotsOnly : ∀ target : Target, target.SlotsOnly →
    target.hasSequence = false
  | .discard, _ | .slot _ _, _ => rfl
  | .tuple parts, slots => anyHasSequence_of_slotsOnly parts slots
  | .sequence _ _, slots | .external _ _ _, slots | .unusable _ _, slots => slots.elim

theorem anyHasSequence_of_slotsOnly : ∀ parts : List Target, AllSlotsOnly parts →
    anyHasSequence parts = false
  | [], _ => rfl
  | part :: parts, slots => by
      rw [anyHasSequence, hasSequence_of_slotsOnly part slots.1,
        anyHasSequence_of_slotsOnly parts slots.2, Bool.or_false]

end

end Target

variable {F σ : Type}

mutual

theorem settle_of_not_hasSequence : ∀ (target : Target) (value : Value F),
    target.hasSequence = false → (settle target value : Action F σ (Value F)) = pure value
  | .discard, _, _ | .slot _ _, _, _ | .external _ _ _, _, _ | .unusable _ _, _, _ => by
      simp [settle]
  | .sequence _ _, _, absent => by simp [Target.hasSequence] at absent
  | .tuple parts, value, absent => by
      cases value with
      | bundle components =>
          by_cases same : components.length = parts.length
          · simp [settle, same, settleAll_of_not_hasSequence parts components same absent]
          · simp [settle, same]
      | _ => simp [settle]

theorem settleAll_of_not_hasSequence : ∀ (parts : List Target) (components : List (Value F)),
    components.length = parts.length → Target.anyHasSequence parts = false →
      (settleAll parts components : Action F σ (List (Value F))) = pure components
  | [], [], _, _ => rfl
  | part :: parts, component :: components, same, absent => by
      simp only [Target.anyHasSequence, Bool.or_eq_false_iff] at absent
      simp only [List.length_cons, Nat.add_right_cancel_iff] at same
      simp [settleAll, settle_of_not_hasSequence part component absent.1,
        settleAll_of_not_hasSequence parts components same absent.2]
  | [], _ :: _, same, _ | _ :: _, [], same, _ => by simp at same

end

namespace World

def setSlots (world : World F σ) (bindings : List (String × Value F)) : World F σ :=
  bindings.foldl (fun reached binding => reached.setSlot binding.1 binding.2) world

@[simp] theorem setSlots_cons (world : World F σ) (binding : String × Value F)
    (rest : List (String × Value F)) :
    world.setSlots (binding :: rest) = (world.setSlot binding.1 binding.2).setSlots rest := rfl

theorem setSlots_append (world : World F σ) (first second : List (String × Value F)) :
    world.setSlots (first ++ second) = (world.setSlots first).setSlots second :=
  List.foldl_append

theorem slot_setSlots_of_not_mem (world : World F σ) (key : String)
    (bindings : List (String × Value F)) (absent : key ∉ bindings.map (·.1)) :
    (world.setSlots bindings).slot key = world.slot key := by
  induction bindings generalizing world with
  | nil => rfl
  | cons binding rest ih =>
      simp only [List.map_cons, List.mem_cons, not_or] at absent
      rw [setSlots_cons, ih _ absent.2, slot_setSlot, if_neg absent.1]

theorem slot_setSlots_of_mem (world : World F σ) (key : String) (value : Value F)
    (bindings : List (String × Value F)) (different : (bindings.map (·.1)).Nodup)
    (member : (key, value) ∈ bindings) : (world.setSlots bindings).slot key = value := by
  induction bindings generalizing world with
  | nil => cases member
  | cons binding rest ih =>
      rw [List.map_cons, List.nodup_cons] at different
      rcases List.mem_cons.mp member with rfl | later
      · rw [setSlots_cons, slot_setSlots_of_not_mem _ _ _ different.1, slot_setSlot, if_pos rfl]
      · exact ih _ different.2 later

@[simp] theorem contexts_setSlots (world : World F σ) (bindings : List (String × Value F)) :
    (world.setSlots bindings).contexts = world.contexts := by
  induction bindings generalizing world with
  | nil => rfl
  | cons binding rest ih => rw [setSlots_cons, ih, setSlot]

@[simp] theorem client_setSlots (world : World F σ) (bindings : List (String × Value F)) :
    (world.setSlots bindings).client = world.client := by
  induction bindings generalizing world with
  | nil => rfl
  | cons binding rest ih => rw [setSlots_cons, ih, setSlot]

@[simp] theorem opened_setSlots (world : World F σ) (bindings : List (String × Value F)) :
    (world.setSlots bindings).opened = world.opened := by
  induction bindings generalizing world with
  | nil => rfl
  | cons binding rest ih => rw [setSlots_cons, ih, setSlot]

end World

mutual

/-- Where a target has slots only, a deposit binds them and does nothing else. -/
theorem outcome_deposit_of_slotsOnly : ∀ (target : Target) (value : Value F) (world : World F σ),
    target.SlotsOnly → target.Fits value →
      (deposit target value).outcome world = (.ok (), world.setSlots (target.bindings value))
  | .discard, _, _, _, _ => rfl
  | .slot _ _, _, _, _, _ => rfl
  | .tuple parts, value, world, slots, fits => by
      obtain ⟨components, rfl, takes⟩ := (Target.takes_tuple_iff _ parts value).mp fits
      rw [deposit, if_pos takes.length_eq, Target.bindings]
      exact outcome_depositAll_of_slotsOnly parts components world slots takes
  | .sequence _ _, _, _, slots, _ | .external _ _ _, _, _, slots, _
  | .unusable _ _, _, _, slots, _ => slots.elim

theorem outcome_depositAll_of_slotsOnly : ∀ (parts : List Target) (components : List (Value F))
    (world : World F σ), Target.AllSlotsOnly parts →
      Target.TakesAll (fun _ _ => True) parts components →
        (depositAll parts components).outcome world =
          (.ok (), world.setSlots (Target.allBindings parts components))
  | [], [], _, _, _ => rfl
  | part :: parts, component :: components, world, slots, takes => by
      rw [depositAll, Action.outcome_bind,
        outcome_deposit_of_slotsOnly part component world slots.1 takes.1, Target.allBindings,
        World.setSlots_append]
      exact outcome_depositAll_of_slotsOnly parts components _ slots.2 takes.2
  | [], _ :: _, _, _, takes => takes.elim
  | _ :: _, [], _, _, takes => takes.elim

end

open Bindery.Action

/-- The items of a value for a sequence fail only as an iterator fails. -/
theorem ends_sequenceItems_raised (value : Value F) (world : World F σ) :
    (sequenceItems value : Action F σ (List (Value F))).Ends world (fun _ _ => True)
      fun error _ => ∃ message, error = .raised .value message := by
  cases value with
  | iterator number =>
      rw [sequenceItems, drain, ends_bind, ends_get]
      cases world.supplies[number]? with
      | none => trivial
      | some supply =>
          simp only [ends_bind, ends_modify]
          cases supply.failure with
          | none => trivial
          | some message => exact ⟨message, rfl⟩
  | _ => trivial

theorem ends_sequenceItems (value : Value F) (world : World F σ) :
    (sequenceItems value : Action F σ (List (Value F))).Ends world (fun _ _ => True)
      fun error _ => error.kind ≠ .tupleArity := by
  refine (ends_sequenceItems_raised value world).mono (fun _ _ _ => trivial) ?_
  rintro error _ ⟨message, rfl⟩
  simp [Error.kind]

/-- The errors that a deposit can fail with. -/
def Error.IsCapture : Error → Prop
  | .arityMismatch _ _ => True
  | .notBundled _ _ => True
  | .unsupportedTarget _ => True
  | .raised .value _ => True
  | _ => False

theorem ends_sequenceItems_isCapture (value : Value F) (world : World F σ) :
    (sequenceItems value : Action F σ (List (Value F))).Ends world (fun _ _ => True)
      fun error _ => error.IsCapture := by
  refine (ends_sequenceItems_raised value world).mono (fun _ _ _ => trivial) ?_
  rintro error _ ⟨message, rfl⟩
  trivial

mutual

theorem ends_deposit_isCapture : ∀ (target : Target) (value : Value F) (world : World F σ),
    (deposit target value).Ends world (fun _ _ => True) fun error _ => error.IsCapture
  | .discard, _, _ => trivial
  | .slot _ _, _, _ => trivial
  | .sequence key _, value, world => by
      rw [deposit, ends_bind]
      exact (ends_sequenceItems_isCapture value world).imp fun _ _ _ => trivial
  | .external key _ hook, value, world => by
      rw [deposit]
      cases hook value.typeName value.likeness with
      | some message => simp [send, Error.IsCapture]
      | none => simp [send]
  | .tuple parts, value, world => by
      cases value with
      | bundle components =>
          rw [deposit]
          split
          · exact ends_depositAll_isCapture parts components world
          · trivial
      | _ => trivial
  | .unusable type _, _, _ => by
      rw [deposit]
      trivial

theorem ends_depositAll_isCapture : ∀ (parts : List Target) (components : List (Value F))
    (world : World F σ), (depositAll parts components).Ends world (fun _ _ => True)
      fun error _ => error.IsCapture
  | part :: parts, component :: components, world => by
      rw [depositAll, ends_bind]
      exact (ends_deposit_isCapture part component world).imp fun _ after _ =>
        ends_depositAll_isCapture parts components after
  | [], _, _ => by
      rw [depositAll]
      · trivial
      · simp
  | _ :: _, [], _ => by
      rw [depositAll]
      · trivial
      · simp

end

mutual

theorem ends_settle_isCapture : ∀ (target : Target) (value : Value F) (world : World F σ),
    (settle target value).Ends world (fun _ _ => True) fun error _ => error.IsCapture
  | .sequence key _, value, world => by
      rw [settle, ends_bind]
      exact (ends_sequenceItems_isCapture value world).imp fun _ _ _ => trivial
  | .tuple parts, value, world => by
      cases value with
      | bundle components =>
          rw [settle]
          split
          · rw [ends_bind]
            exact (ends_settleAll_isCapture parts components world).imp fun _ _ _ => trivial
          · trivial
      | _ => trivial
  | .discard, _, _ | .slot _ _, _, _ | .external _ _ _, _, _ | .unusable _ _, _, _ => by
      simp only [settle, ends_pure]

theorem ends_settleAll_isCapture : ∀ (parts : List Target) (components : List (Value F))
    (world : World F σ), (settleAll parts components).Ends world (fun _ _ => True)
      fun error _ => error.IsCapture
  | part :: parts, component :: components, world => by
      rw [settleAll, ends_bind]
      refine (ends_settle_isCapture part component world).imp fun _ after _ => ?_
      rw [ends_bind]
      exact (ends_settleAll_isCapture parts components after).imp fun _ _ _ => trivial
  | [], _, _ => by
      rw [settleAll]
      · trivial
      · simp
  | _ :: _, [], _ => by
      rw [settleAll]
      · trivial
      · simp

end

/-- The kinds of error that a deposit can fail with. -/
def Error.Kind.IsDeposit (kind : Error.Kind) : Prop :=
  kind = .tupleArity ∨ kind = .type ∨ kind = .value

theorem ends_deposit_isDeposit (target : Target) (value : Value F) (world : World F σ) :
    (deposit target value).Ends world (fun _ _ => True) fun error _ => error.kind.IsDeposit := by
  refine (ends_deposit_isCapture target value world).mono (fun _ _ _ => trivial) ?_
  intro error _ capture
  unfold Error.IsCapture at capture
  split at capture
  · exact Or.inl rfl
  · exact Or.inl rfl
  · exact Or.inr (Or.inl rfl)
  · exact Or.inr (Or.inr rfl)
  · exact capture.elim

mutual

theorem ends_deposit_of_fits : ∀ (target : Target) (value : Value F), target.Fits value →
    ∀ world : World F σ, (deposit target value).Ends world (fun _ _ => True)
      fun error _ => error.kind ≠ .tupleArity
  | .discard, _, _, _ => trivial
  | .slot _ _, _, _, _ => trivial
  | .sequence key _, value, _, world => by
      rw [deposit, ends_bind]
      exact (ends_sequenceItems value world).imp fun _ _ _ => trivial
  | .external key _ hook, value, _, world => by
      rw [deposit]
      cases hook value.typeName value.likeness with
      | some message => simp [send, Error.kind]
      | none => simp [send]
  | .tuple parts, value, fits, world => by
      obtain ⟨components, rfl, takes⟩ := (Target.takes_tuple_iff _ parts value).mp fits
      rw [deposit, if_pos takes.length_eq]
      exact ends_depositAll_of_fits parts components takes world
  | .unusable type _, _, _, _ => by simp [deposit, Error.kind]

theorem ends_depositAll_of_fits : ∀ (parts : List Target) (components : List (Value F)),
    Target.TakesAll (fun _ _ => True) parts components →
      ∀ world : World F σ, (depositAll parts components).Ends world (fun _ _ => True)
        fun error _ => error.kind ≠ .tupleArity
  | [], [], _, _ => trivial
  | part :: parts, component :: components, takes, world => by
      rw [depositAll, ends_bind]
      exact (ends_deposit_of_fits part component takes.1 world).imp fun _ after _ =>
        ends_depositAll_of_fits parts components takes.2 after
  | [], _ :: _, takes, _ => takes.elim
  | _ :: _, [], takes, _ => takes.elim

end

mutual

theorem ends_settle_of_fits : ∀ (target : Target) (value : Value F), target.Fits value →
    ∀ world : World F σ, (settle target value).Ends world (fun settled _ => target.Fits settled)
      fun error _ => error.kind ≠ .tupleArity
  | .sequence key _, value, _, world => by
      rw [settle, ends_bind]
      exact (ends_sequenceItems value world).imp fun _ _ _ => trivial
  | .tuple parts, value, fits, world => by
      obtain ⟨components, rfl, takes⟩ := (Target.takes_tuple_iff _ parts value).mp fits
      rw [settle, if_pos takes.length_eq, ends_bind]
      exact (ends_settleAll_of_fits parts components takes world).imp fun _ _ settled => settled
  | .discard, _, fits, _ | .slot _ _, _, fits, _ | .external _ _ _, _, fits, _
  | .unusable _ _, _, fits, _ => by
      simp only [settle, ends_pure]
      exact fits

theorem ends_settleAll_of_fits : ∀ (parts : List Target) (components : List (Value F)),
    Target.TakesAll (fun _ _ => True) parts components →
      ∀ world : World F σ, (settleAll parts components).Ends world
        (fun settled _ => Target.TakesAll (fun _ _ => True) parts settled)
        fun error _ => error.kind ≠ .tupleArity
  | [], [], _, _ => trivial
  | part :: parts, component :: components, takes, world => by
      rw [settleAll, ends_bind]
      refine (ends_settle_of_fits part component takes.1 world).imp fun first after fits => ?_
      rw [ends_bind]
      exact (ends_settleAll_of_fits parts components takes.2 after).imp fun _ _ others =>
        ⟨fits, others⟩
  | [], _ :: _, takes, _ => takes.elim
  | _ :: _, [], takes, _ => takes.elim

end

theorem ends_settleAndDeposit_of_fits (target : Target) (value : Value F)
    (fits : target.Fits value) (world : World F σ) :
    (settleAndDeposit target value).Ends world (fun settled _ => target.Fits settled)
      fun error _ => error.kind ≠ .tupleArity := by
  rw [settleAndDeposit, ends_bind]
  refine (ends_settle_of_fits target value fits world).imp fun settled after settledFits => ?_
  rw [ends_bind]
  exact (ends_deposit_of_fits target settled settledFits after).imp fun _ _ _ => settledFits

end Bindery
