import Bindery.Proofs.FanOut
import Bindery.Proofs.Registration

set_option autoImplicit false

namespace Bindery

open Bindery.Action

variable {F σ : Type}

namespace Target

mutual

/-- Whether all parts of a target, at any depth, can take values. -/
def usable : Target → Bool
  | .unusable _ _ => false
  | .tuple parts => allUsable parts
  | _ => true

def allUsable : List Target → Bool
  | [] => true
  | part :: parts => usable part && allUsable parts

end

@[simp] theorem usable_pair (first second : Target) :
    usable (.tuple [first, second]) = (first.usable && second.usable) := by
  simp [usable, allUsable]

theorem accepts_of_usable {target : Target} (usable : target.usable = true) :
    target.accepts = true := by
  cases target with
  | unusable type likeness => cases usable
  | _ => rfl

theorem allUsable_eq_all (parts : List Target) : allUsable parts = parts.all usable := by
  induction parts with
  | nil => rfl
  | cons part rest ih => rw [allUsable, ih, List.all_cons]

theorem accepts_of_mem_arrivals (target : Target) (value : Value F)
    (usable : target.usable = true) :
    ∀ arrival ∈ target.arrivals value, arrival.target.accepts = true := by
  let good : Target → Value F → Prop := fun target _ => target.usable = true
  have inside : ∀ parts components, good (.tuple parts) (.bundle components) →
      ∀ pair ∈ parts.zip components, good pair.1 pair.2 := by
    intro parts components all pair member
    have each : parts.all Target.usable = true := (allUsable_eq_all parts).symm.trans all
    exact List.all_eq_true.mp each pair.1 (List.of_mem_zip member).1
  exact forall_mem_arrivals inside (fun _ _ here => accepts_of_usable here) target value usable

mutual

/-- A value that fits arrives at each unusable part. -/
theorem exists_arrival_of_not_usable : ∀ (target : Target) (value : Value F),
    target.Fits value → target.usable = false →
      ∃ arrival ∈ target.arrivals value, arrival.target.accepts = false
  | .tuple parts, value, fits, broken => by
      obtain ⟨components, same, takes⟩ := (takes_tuple_iff _ parts value).mp fits
      rw [same, arrivals, if_pos takes.length_eq]
      exact exists_allArrivals_of_not_allUsable parts components takes broken
  | .unusable type likeness, value, _, _ => by
      refine ⟨⟨.unusable type likeness, value⟩, ?_, rfl⟩
      simp only [arrivals, List.mem_singleton]
  | .discard, _, _, broken | .slot _ _, _, _, broken | .sequence _ _, _, _, broken
  | .external _ _ _, _, _, broken => by cases broken

theorem exists_allArrivals_of_not_allUsable : ∀ (parts : List Target)
    (components : List (Value F)), TakesAll (fun _ _ => True) parts components →
      allUsable parts = false →
        ∃ arrival ∈ allArrivals parts components, arrival.target.accepts = false
  | [], [], _, broken => by cases broken
  | part :: parts, component :: components, takes, broken => by
      simp only [allArrivals, List.mem_append]
      rw [allUsable, Bool.and_eq_false_iff] at broken
      rcases broken with here | later
      · obtain ⟨arrival, member, refused⟩ :=
          exists_arrival_of_not_usable part component takes.1 here
        exact ⟨arrival, Or.inl member, refused⟩
      · obtain ⟨arrival, member, refused⟩ :=
          exists_allArrivals_of_not_allUsable parts components takes.2 later
        exact ⟨arrival, Or.inr member, refused⟩
  | [], _ :: _, takes, _ => takes.elim
  | _ :: _, [], takes, _ => takes.elim

end

end Target

/-- The error of a value that is sent to an object that takes none. -/
def Error.IsUnsupported : Error → Prop
  | .unsupportedTarget _ => True
  | _ => False

namespace Arrival

theorem not_isUnsupported_of_accepts {arrival : Arrival F}
    (accepts : arrival.target.accepts = true) {supplies : List (Supply F)} {error : Error}
    (refused : arrival.refusal? supplies = some error) : ¬ error.IsUnsupported := by
  obtain ⟨target, value⟩ := arrival
  cases target with
  | discard => cases refused
  | slot key name => cases refused
  | sequence key name =>
      cases value with
      | iterator number =>
          obtain ⟨message, -, same⟩ := Option.map_eq_some_iff.mp refused
          rw [← same]
          exact id
      | _ => cases refused
  | external key name hook =>
      obtain ⟨message, -, same⟩ := Option.map_eq_some_iff.mp refused
      rw [← same]
      exact id
  | tuple parts => cases value <;> cases refused <;> exact id
  | unusable type likeness => cases accepts

theorem refusal?_of_not_accepts {arrival : Arrival F} (broken : arrival.target.accepts = false)
    (supplies : List (Supply F)) :
    ∃ type, arrival.refusal? supplies = some (.unsupportedTarget type) := by
  obtain ⟨target, value⟩ := arrival
  cases target with
  | unusable type likeness => exact ⟨type, rfl⟩
  | _ => cases broken

end Arrival

/-- A deposit fails for want of support only at an unusable part, whether the value fits or not. -/
theorem ends_deposit_of_usable {target : Target} (usable : target.usable = true) (value : Value F)
    (world : World F σ) :
    (deposit target value).Ends world (fun _ _ => True) fun error _ => ¬ error.IsUnsupported := by
  unfold Ends
  rcases Arrival.exists_first_refused world.supplies (target.arrivals value) with
    accepted | ⟨earlier, failing, later, error, split, accepted, refused⟩
  · obtain ⟨after, ended, -⟩ := outcome_deposit_of_accepted accepted
    rw [ended]
    trivial
  · obtain ⟨after, ended, -⟩ := outcome_deposit_of_refused split accepted refused
    have accepts := target.accepts_of_mem_arrivals value usable failing (by simp [split])
    rw [ended]
    exact Arrival.not_isUnsupported_of_accepts accepts refused

/-- The deposit of a value that fits fails at an unusable part, if no iterator and no external
target fails before. -/
theorem outcome_deposit_of_not_usable {target : Target} (broken : target.usable = false)
    {value : Value F} (fits : target.Fits value) {world : World F σ}
    (quiet : ∀ arrival ∈ target.arrivals value, ∀ error,
      arrival.refusal? world.supplies = some error → error.IsUnsupported) :
    ∃ type, ((deposit target value).outcome world).1 = .error (.unsupportedTarget type) := by
  rcases Arrival.exists_first_refused world.supplies (target.arrivals value) with
    accepted | ⟨earlier, failing, later, error, split, accepted, refused⟩
  · obtain ⟨arrival, member, stops⟩ := target.exists_arrival_of_not_usable value fits broken
    obtain ⟨type, refused⟩ := Arrival.refusal?_of_not_accepts stops world.supplies
    rw [accepted arrival member] at refused
    cases refused
  · obtain ⟨after, ended, -⟩ := outcome_deposit_of_refused split accepted refused
    have unsupported := quiet failing (by simp [split]) error refused
    cases error with
    | unsupportedTarget type => exact ⟨type, by rw [ended]⟩
    | _ => exact unsupported.elim

/-- All targets of a step are usable: its own, and those of its definitions. -/
structure Step.Usable (step : Step F) : Prop where
  own : step.ownTarget.usable = true
  added : ∀ target thunk, .define target thunk ∈ step.qualifiers → target.usable = true

def World.Usable (world : World F σ) : Prop :=
  ∀ steps ∈ world.contexts, ∀ step ∈ steps, step.Usable

/-- A call that brings in usable targets only. -/
def Call.Usable : Call F → Prop
  | .draw target _ => target.usable = true
  | .define target _ => target.usable = true
  | _ => True

theorem Call.Usable.amend {call : Call F} (usable : call.Usable) {steps : List (Step F)}
    (all : ∀ step ∈ steps, step.Usable) : ∀ step ∈ call.amend steps, step.Usable := by
  cases call with
  | draw target source =>
      intro step member
      rcases List.mem_append.mp member with earlier | new
      · exact all step earlier
      · rw [List.mem_singleton.mp new]
        exact ⟨usable, by simp⟩
  | restrict predicate =>
      refine forall_mem_modify all fun step earlier => ⟨earlier.own, ?_⟩
      intro target thunk member
      exact earlier.added target thunk (by simpa [Step.qualified] using member)
  | define target thunk =>
      refine forall_mem_modify all fun step earlier => ⟨earlier.own, ?_⟩
      intro other body member
      rcases List.mem_append.mp member with old | new
      · exact earlier.added other body old
      · cases List.mem_singleton.mp new
        exact usable
  | conclude block =>
      exact forall_mem_modify all fun step earlier => ⟨earlier.own, earlier.added⟩

theorem World.Usable.modifySteps {world : World F σ} (usable : world.Usable) (context : Nat)
    {call : Call F} (brings : call.Usable) : (world.modifySteps context call.amend).Usable :=
  forall_mem_modify usable fun _ all => brings.amend all

theorem World.Usable.of_step? {world : World F σ} (usable : world.Usable) {ref : StepRef}
    {step : Step F} (found : world.step? ref = some step) : step.Usable := by
  obtain ⟨steps, known, member⟩ := World.exists_mem_of_step? found
  exact usable steps known step member

theorem usable_ignoresTargets : IgnoresTargets (World.Usable (F := F) (σ := σ)) :=
  fun _ _ _ _ _ _ usable => usable

end Bindery
