import Bindery.Plan.Report
import Bindery.Proofs.Snapshot

set_option autoImplicit false

namespace Bindery

variable {F σ : Type}

theorem leadsTo_stepsIn {world : World F σ} {plan : Plan}
    (known : ∀ ref ∈ plan.steps, (world.step? ref).isSome) :
    world.LeadsTo plan.steps (plan.stepsIn world) := by
  obtain ⟨refs⟩ := plan
  induction refs with
  | nil => exact .nil
  | cons ref refs ih =>
      obtain ⟨step, found⟩ := Option.isSome_iff_exists.mp (known ref (by simp))
      have others := ih fun other member => known other (by simp [member])
      simp only [Plan.stepsIn, List.filterMap_cons, found]
      exact .cons found others

namespace Plan

/-- The structure of a plan keeps it from being chained: the checks before any source fail. -/
def Rejected (plan : Plan) (world : World F σ) (error : Error) : Prop :=
  ((checkStructure plan.steps).outcome world).1 = .error error

/-- Whether a step before the last carries a block of results. -/
def BlockBeforeLast (plan : Plan) (world : World F σ) : Prop :=
  ∃ step ∈ (plan.stepsIn world).dropLast, step.hasBlock = true

/-- Whether the last step carries a block of results. -/
def BlockOnLast (plan : Plan) (world : World F σ) : Prop :=
  ∃ step, (plan.stepsIn world).getLast? = some step ∧ step.hasBlock = true

variable {plan : Plan} {world : World F σ}

theorem rejected_iff (known : ∀ ref ∈ plan.steps, (world.step? ref).isSome) (error : Error) :
    plan.Rejected world error ↔
      (plan.stepsIn world = [] ∧ error = .noSteps) ∨
      ∃ place, misplacedBlock? (plan.stepsIn world) = some place ∧
        error = .misplacedBlock place plan.steps.length := by
  rw [Rejected, outcome_checkStructure (leadsTo_stepsIn known)]
  by_cases empty : plan.stepsIn world = []
  · simp [empty, misplacedBlock?, eq_comm]
  · cases misplacedBlock? (plan.stepsIn world) <;> simp [empty, eq_comm]

theorem exists_rejected_iff (known : ∀ ref ∈ plan.steps, (world.step? ref).isSome) :
    (∃ error, plan.Rejected world error) ↔
      plan.stepsIn world = [] ∨ plan.BlockBeforeLast world := by
  simp only [rejected_iff known, BlockBeforeLast, ← misplacedBlock?_isSome,
    Option.isSome_iff_exists]
  constructor
  · rintro ⟨error, ⟨empty, -⟩ | ⟨place, found, -⟩⟩
    · exact Or.inl empty
    · exact Or.inr ⟨place, found⟩
  · rintro (empty | ⟨place, found⟩)
    · exact ⟨_, Or.inl ⟨empty, rfl⟩⟩
    · exact ⟨_, Or.inr ⟨place, found, rfl⟩⟩

/-- A plan that is rejected is rejected whatever its functions do, and nothing happens. -/
theorem outcome_chain_of_rejected (known : ∀ ref ∈ plan.steps, (world.step? ref).isSome)
    {error : Error} (rejected : plan.Rejected world error) (meaning : Meaning F σ) :
    (plan.chain meaning).outcome world = (.error error, world) := by
  have checked := outcome_checkStructure (leadsTo_stepsIn known)
  rw [Rejected] at rejected
  rw [chain, chainSteps_eq_check, Action.outcome_bind]
  rw [checked] at rejected ⊢
  by_cases empty : plan.stepsIn world = []
  · simpa [empty] using rejected
  · cases placed : misplacedBlock? (plan.stepsIn world) with
    | none => simp [empty, placed] at rejected
    | some place => simpa [empty, placed] using rejected

end Plan

theorem summarizeFrom_append (index : Nat) (first second : List (Step F)) :
    summarizeFrom index (first ++ second) =
      summarizeFrom index first ++ summarizeFrom (index + first.length) second := by
  induction first generalizing index with
  | nil => rfl
  | cons step rest ih =>
      simp only [List.cons_append, summarizeFrom, ih, List.length_cons, Nat.add_assoc,
        Nat.add_comm 1]

namespace Report

/-- Whether a report warns of a structure that cannot be chained. -/
def WarnsOfStructure (report : Report) : Prop :=
  emptyWarning ∈ report.warnings ∨
    ∃ blockIndex last, misplacedWarning blockIndex last ∈ report.warnings

theorem mem_warnings_warn (report : Report) (warning other : String) :
    other ∈ (report.warn warning).warnings ↔ other = warning ∨ other ∈ report.warnings := by
  unfold warn
  split
  · rename_i listed
    constructor
    · exact Or.inr
    · rintro (rfl | member)
      · exact listed
      · exact member
  · simp [or_comm]

theorem mem_warnings_warnIf (report : Report) (condition : Bool) (warning other : String) :
    other ∈ (report.warnIf condition warning).warnings ↔
      (condition = true ∧ other = warning) ∨ other ∈ report.warnings := by
  cases condition <;> simp [warnIf, mem_warnings_warn]

/-- The kinds of warning differ in the first letter. -/
theorem head_append (front back : String) (letter : Char)
    (first : front.toList.head? = some letter) :
    (front ++ back).toList.head? = some letter := by
  rw [String.toList_append, List.head?_append, first, Option.some_or]

theorem head_emptyWarning : emptyWarning.toList.head? = some 'E' := by decide

theorem head_noBlockWarning : noBlockWarning.toList.head? = some 'N' := by decide

theorem head_misplacedWarning (blockIndex last : Nat) :
    (misplacedWarning blockIndex last).toList.head? = some 'M' :=
  head_append _ _ _ (head_append _ _ _ (head_append _ _ _ (by decide)))

theorem head_discardedWarning (discarded : List Nat) :
    (discardedWarning discarded).toList.head? = some 'D' :=
  head_append _ _ _ (head_append _ _ _ (by decide))

theorem ne_of_heads {text other : String} {first second : Char}
    (textHead : text.toList.head? = some first) (otherHead : other.toList.head? = some second)
    (differ : first ≠ second) : text ≠ other := by
  rintro rfl
  exact differ (Option.some.inj (textHead.symm.trans otherHead))

theorem figures_foldl_addStep (summaries : List StepSummary) (report : Report) :
    (summaries.foldl addStep report).warnings = report.warnings ∧
      (summaries.foldl addStep report).totalSteps = report.totalSteps := by
  induction summaries generalizing report with
  | nil => exact ⟨rfl, rfl⟩
  | cons summary rest ih => exact ih (report.addStep summary)

theorem blockIndex_eq_none_iff (steps : List (Step F)) (index : Nat) (report : Report) :
    ((summarizeFrom index steps).foldl addStep report).blockIndex = none ↔
      report.blockIndex = none ∧ ∀ step ∈ steps, step.hasBlock = false := by
  induction steps generalizing index report with
  | nil => simp [summarizeFrom]
  | cons step rest ih =>
      rw [summarizeFrom, List.foldl_cons, ih]
      cases carried : step.hasBlock <;> simp [addStep, Step.summary, carried]

theorem blockIndex_lt (steps : List (Step F)) (index : Nat) (report : Report)
    (bounded : ∀ place ∈ report.blockIndex, place < index) :
    ∀ place ∈ ((summarizeFrom index steps).foldl addStep report).blockIndex,
      place < index + steps.length := by
  induction steps generalizing index report with
  | nil => simpa [summarizeFrom] using bounded
  | cons step rest ih =>
      rw [summarizeFrom, List.foldl_cons, List.length_cons, Nat.add_comm rest.length,
        ← Nat.add_assoc]
      refine ih (index + 1) _ ?_
      intro place member
      cases carried : step.hasBlock with
      | true =>
          simp only [addStep, Step.summary, carried, ↓reduceIte, Option.mem_some_iff] at member
          omega
      | false =>
          simp only [addStep, Step.summary, carried, Bool.false_eq_true, ↓reduceIte] at member
          have := bounded place member
          omega

/-- A report warns of structure when there are no steps, or when the last block that it met is not
on the last step. -/
theorem warnsOfStructure_withWarnings (report : Report) (fresh : report.warnings = []) :
    report.withWarnings.WarnsOfStructure ↔
      report.totalSteps = 0 ∨
        ∃ place, report.blockIndex = some place ∧ place ≠ report.totalSteps - 1 := by
  by_cases empty : report.totalSteps = 0
  · simp [WarnsOfStructure, withWarnings, empty, mem_warnings_warn]
  · have emptyNeDiscarded := ne_of_heads head_emptyWarning
      (head_discardedWarning report.discarded) (by decide)
    have misplacedNeDiscarded := fun place last => ne_of_heads (head_misplacedWarning place last)
      (head_discardedWarning report.discarded) (by decide)
    cases remembered : report.blockIndex with
    | none =>
        have emptyNeNone := ne_of_heads head_emptyWarning head_noBlockWarning (by decide)
        have misplacedNeNone := fun place last =>
          ne_of_heads (head_misplacedWarning place last) head_noBlockWarning (by decide)
        simp [WarnsOfStructure, withWarnings, empty, remembered, mem_warnings_warnIf,
          mem_warnings_warn, fresh, emptyNeDiscarded, misplacedNeDiscarded, emptyNeNone,
          misplacedNeNone]
    | some place =>
        have emptyNeMisplaced := ne_of_heads head_emptyWarning
          (head_misplacedWarning place (report.totalSteps - 1)) (by decide)
        simp only [WarnsOfStructure, withWarnings, empty, remembered, mem_warnings_warnIf, fresh,
          ↓reduceIte, emptyNeDiscarded, misplacedNeDiscarded, emptyNeMisplaced, and_false,
          List.not_mem_nil, or_false, false_or, bne_iff_ne, Option.some.injEq, exists_eq_left']
        constructor
        · rintro ⟨_, _, misplaced, -⟩
          exact misplaced
        · intro misplaced
          exact ⟨_, _, misplaced, rfl⟩

end Report

namespace Plan

variable {plan : Plan} {world : World F σ}

theorem length_stepsIn (known : ∀ ref ∈ plan.steps, (world.step? ref).isSome) :
    (plan.stepsIn world).length = plan.steps.length :=
  (leadsTo_stepsIn known).length_eq.symm

theorem warnsOfStructure_iff (plan : Plan) (world : World F σ) :
    (Report.ofSummaries (plan.summariesIn world)).WarnsOfStructure ↔
      plan.stepsIn world = [] ∨ (plan.BlockBeforeLast world ∧ ¬ plan.BlockOnLast world) := by
  unfold Report.ofSummaries
  rw [Report.warnsOfStructure_withWarnings _ (Report.figures_foldl_addStep _ _).1,
    (Report.figures_foldl_addStep _ _).2]
  simp only [summariesIn, length_summarizeFrom, BlockBeforeLast, BlockOnLast]
  rcases List.eq_nil_or_concat (plan.stepsIn world) with empty | ⟨front, last, steps⟩
  · simp [empty]
  · have remembered := Report.blockIndex_eq_none_iff front 0 { totalSteps := front.length + 1 }
    have bounded := Report.blockIndex_lt front 0 { totalSteps := front.length + 1 } (by simp)
    simp only [Nat.zero_add] at bounded
    cases carried : last.hasBlock with
    | true =>
        simp [steps, summarizeFrom_append, summarizeFrom, Report.addStep, Step.summary, carried]
    | false =>
        cases found : (List.foldl Report.addStep { totalSteps := front.length + 1 }
            (summarizeFrom 0 front)).blockIndex with
        | none =>
            have bare := (remembered.mp found).2
            simpa [steps, summarizeFrom_append, summarizeFrom, Report.addStep, Step.summary,
              carried, found] using bare
        | some place =>
            have inside := bounded place found
            have some_block : ∃ step ∈ front, step.hasBlock = true := by
              by_contra none_block
              simp only [not_exists, not_and, Bool.not_eq_true] at none_block
              exact absurd (remembered.mpr ⟨rfl, none_block⟩) (by simp [found])
            simpa [steps, summarizeFrom_append, summarizeFrom, Report.addStep, Step.summary,
              carried, found, Nat.ne_of_lt inside] using some_block

/-- The steps of the plan of a description are all registered. -/
theorem isSome_step?_of_ofDescription {description : Description F σ} {after : World F σ}
    (made : (ofDescription description).outcome world = (.ok plan, after)) :
    ∀ ref ∈ plan.steps, (after.step? ref).isSome := by
  have ends : (ofDescription description).Ends world
      (fun plan after => ∀ ref ∈ plan.steps, (after.step? ref).isSome) fun _ _ => True := by
    simp only [ofDescription, Description.steps, bind_assoc, Action.ends_bind, Action.ends_pure]
    refine Action.Ends.of_forall (fun context reached => ?_) fun _ _ => trivial
    rw [Context.stepRefs, Action.ends_bind, Action.ends_get, Action.ends_pure]
    simp [World.step?]
  exact ends.of_ok made

/-- A report warns of structure exactly when the structure keeps the plan from being chained, unless
both the last step and a step before it carry a block of results: such a plan is rejected without a
warning. A plan that is rejected is rejected before any function is called, in an unchanged
state. -/
theorem warnsOfStructure_iff_rejected_iff {description : Description F σ} {after : World F σ}
    (made : (ofDescription description).outcome world = (.ok plan, after)) :
    (∀ ref ∈ plan.steps, (after.step? ref).isSome) ∧
    ∀ now : World F σ, (∀ ref ∈ plan.steps, (now.step? ref).isSome) →
      (((Report.ofSummaries (plan.summariesIn now)).WarnsOfStructure ↔
          ∃ error, plan.Rejected now error) ↔
        ¬ (plan.BlockBeforeLast now ∧ plan.BlockOnLast now)) ∧
      ((Report.ofSummaries (plan.summariesIn now)).WarnsOfStructure →
        ∃ error, plan.Rejected now error) ∧
      ∀ error, plan.Rejected now error →
        ((plan.steps = [] ∧ error = .noSteps) ∨
          ∃ place, place + 1 < plan.steps.length ∧
            error = .misplacedBlock place plan.steps.length) ∧
        ∀ meaning : Meaning F σ, (plan.chain meaning).outcome now = (.error error, now) := by
  refine ⟨isSome_step?_of_ofDescription made, fun now known => ⟨?_, ?_, ?_⟩⟩
  · rw [warnsOfStructure_iff, exists_rejected_iff known]
    have nothing : plan.stepsIn now = [] → ¬ plan.BlockBeforeLast now := by
      intro empty
      simp [BlockBeforeLast, empty]
    tauto
  · rw [warnsOfStructure_iff, exists_rejected_iff known]
    tauto
  · intro error rejected
    refine ⟨?_, outcome_chain_of_rejected known rejected⟩
    have sizes := length_stepsIn known
    rcases (rejected_iff known error).mp rejected with ⟨empty, rfl⟩ | ⟨place, found, rfl⟩
    · rw [empty] at sizes
      exact Or.inl ⟨List.eq_nil_of_length_eq_zero sizes.symm, rfl⟩
    · obtain ⟨inside, -⟩ := List.findIdx?_eq_some_iff_getElem.mp found
      rw [List.length_dropLast, sizes] at inside
      exact Or.inr ⟨place, by omega, rfl⟩

def blocksOnBoth : Description Unit Unit := fun context => do
  Context.draw context (.slot "x" none) (.function ())
  Context.conclude context (.function ())
  Context.draw context (.slot "y" none) (.function ())
  Context.conclude context (.function ())

theorem blocksOnBoth_unwarned_and_rejected :
    ∃ plan after, (ofDescription blocksOnBoth).outcome { client := () } = (.ok plan, after) ∧
      ¬ (Report.ofSummaries (plan.summariesIn after)).WarnsOfStructure ∧
      plan.Rejected after (.misplacedBlock 0 2) := by
  refine ⟨_, _, rfl, ?_, rfl⟩
  rintro (empty | ⟨_, _, misplaced⟩)
  · cases empty
  · cases misplaced

def blockOnFirst : Description Unit Unit := fun context => do
  Context.draw context .discard (.function ())
  Context.conclude context (.function ())
  Context.draw context .discard (.function ())

theorem blockOnFirst_warned_and_rejected :
    ∃ plan after, (ofDescription blockOnFirst).outcome { client := () } = (.ok plan, after) ∧
      ((Report.ofSummaries (plan.summariesIn after)).WarnsOfStructure ↔
        ∃ error, plan.Rejected after error) ∧
      ∀ meaning : Meaning Unit Unit,
        (plan.chain meaning).outcome after = (.error (.misplacedBlock 0 2), after) := by
  refine ⟨_, _, rfl, ?_⟩
  have made : (ofDescription blockOnFirst).outcome { client := () } = (.ok _, _) := rfl
  obtain ⟨known, laws⟩ := warnsOfStructure_iff_rejected_iff made
  obtain ⟨agree, -, refused⟩ := laws _ known
  refine ⟨agree.mpr ?_, (refused (.misplacedBlock 0 2) rfl).2⟩
  rintro ⟨-, step, last, carried⟩
  cases last
  cases carried

end Plan

end Bindery
