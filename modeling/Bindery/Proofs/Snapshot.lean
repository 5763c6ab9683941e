import Bindery.Chain
import Bindery.Proofs.Frame

set_option autoImplicit false

namespace Bindery

variable {F σ : Type}

def checkStructure (steps : List StepRef) : Action F σ PUnit := do
  if steps.isEmpty then throw .noSteps
  checkBlockPlace steps.length steps 0

theorem chainSteps_eq_check (meaning : Meaning F σ) (steps : List StepRef) :
    chainSteps meaning steps = checkStructure steps >>= fun _ => chainFrom meaning steps 0 := by
  unfold chainSteps checkStructure
  cases steps.isEmpty <;> simp only [Bool.false_eq_true, ↓reduceIte, bind_assoc]

theorem currentStep_preserves {invariant : World F σ → Prop} (ref : StepRef) :
    Action.Preserves invariant (currentStep ref) := by
  refine Action.preserves_get.bind fun world => ?_
  cases world.step? ref with
  | none => exact Action.preserves_throw _
  | some step => exact Action.preserves_pure step

theorem checkBlockPlace_preserves {invariant : World F σ → Prop} (total : Nat)
    (refs : List StepRef) (index : Nat) :
    Action.Preserves invariant (checkBlockPlace total refs index) := by
  induction refs generalizing index with
  | nil => exact Action.preserves_pure _
  | cons ref rest ih =>
      cases rest with
      | nil => exact Action.preserves_pure _
      | cons next others =>
          exact (currentStep_preserves ref).bind fun _ =>
            (Action.preserves_throw _).ite (ih (index + 1))

theorem checkStructure_preserves {invariant : World F σ → Prop} (refs : List StepRef) :
    Action.Preserves invariant (checkStructure refs) := by
  cases refs with
  | nil => exact Action.preserves_throw _
  | cons ref rest => exact checkBlockPlace_preserves _ _ _

/-- The checks change nothing, whatever the references lead to. -/
theorem world_checkStructure (refs : List StepRef) (world : World F σ) :
    ((checkStructure refs).outcome world).2 = world := by
  have preserves : Action.Preserves (· = world) (checkStructure refs) :=
    checkStructure_preserves refs
  exact preserves.outcome rfl

def World.LeadsTo (world : World F σ) (refs : List StepRef) (steps : List (Step F)) : Prop :=
  List.Forall₂ (fun ref step => world.step? ref = some step) refs steps

theorem outcome_currentStep {ref : StepRef} {step : Step F} {world : World F σ}
    (found : world.step? ref = some step) :
    (currentStep ref).outcome world = (.ok step, world) := by
  simp [currentStep, Action.outcome_bind, found]

/-- The place of the first block of results before the last step. -/
def misplacedBlock? (steps : List (Step F)) : Option Nat :=
  steps.dropLast.findIdx? Step.hasBlock

theorem outcome_checkBlockPlace {world : World F σ} {refs : List StepRef} {steps : List (Step F)}
    (leads : world.LeadsTo refs steps) (total index : Nat) :
    (checkBlockPlace total refs index).outcome world =
      match misplacedBlock? steps with
      | some place => (.error (.misplacedBlock (index + place) total), world)
      | none => (.ok (), world) := by
  induction leads generalizing index with
  | nil => rfl
  | @cons ref step refs steps found others ih =>
      cases others with
      | nil => rfl
      | @cons next second refs steps foundNext later =>
          rw [checkBlockPlace, Action.outcome_bind, outcome_currentStep found]
          cases carried : step.hasBlock with
          | true => simp [misplacedBlock?, List.findIdx?_cons, carried]
          | false =>
              simp only [misplacedBlock?, List.dropLast_cons_cons, List.findIdx?_cons, carried,
                Bool.false_eq_true, ↓reduceIte]
              rw [ih (index + 1), misplacedBlock?]
              cases List.findIdx? Step.hasBlock (second :: steps).dropLast with
              | none => rfl
              | some place => simp [Nat.add_assoc, Nat.add_comm 1 place]

/-- What the checks end with. They change nothing in either case. -/
theorem outcome_checkStructure {world : World F σ} {refs : List StepRef} {steps : List (Step F)}
    (leads : world.LeadsTo refs steps) :
    (checkStructure refs).outcome world =
      if steps = [] then (.error .noSteps, world)
      else
        match misplacedBlock? steps with
        | some place => (.error (.misplacedBlock place refs.length), world)
        | none => (.ok (), world) := by
  cases leads with
  | nil => rfl
  | @cons ref step refs steps found others =>
      have checked := outcome_checkBlockPlace (.cons found others) (ref :: refs).length 0
      simp only [Nat.zero_add] at checked
      simpa [checkStructure] using checked

theorem outcome_chainSteps {world : World F σ} {refs : List StepRef} {steps : List (Step F)}
    (leads : world.LeadsTo refs steps) (nonempty : steps ≠ [])
    (blocks : misplacedBlock? steps = none)
    (meaning : Meaning F σ) :
    (chainSteps meaning refs).outcome world = (chainFrom meaning refs 0).outcome world := by
  have checked := outcome_checkStructure leads
  rw [if_neg nonempty, blocks] at checked
  rw [chainSteps_eq_check, Action.outcome_bind, checked]

theorem misplacedBlock?_isSome (steps : List (Step F)) :
    (misplacedBlock? steps).isSome ↔ ∃ step ∈ steps.dropLast, step.hasBlock = true := by
  simp [misplacedBlock?]

theorem misplacedBlock?_cons_cons {step next : Step F} {rest : List (Step F)}
    (blocks : misplacedBlock? (step :: next :: rest) = none) :
    step.hasBlock = false ∧ misplacedBlock? (next :: rest) = none := by
  rw [misplacedBlock?, List.dropLast_cons_cons, List.findIdx?_cons] at blocks
  cases carried : step.hasBlock with
  | true => simp [carried] at blocks
  | false =>
      rw [carried, if_neg Bool.false_ne_true, Option.map_eq_none_iff] at blocks
      exact ⟨rfl, blocks⟩

end Bindery
