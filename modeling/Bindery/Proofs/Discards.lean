import Bindery.Proofs.Usability
import Bindery.Proofs.Warnings

set_option autoImplicit false

namespace Bindery

open Bindery.Action

variable {F σ : Type}

namespace Target

mutual

/-- The parts of a target, at any depth, that are no tuples, in order. -/
def leaves : Target → List Target
  | .tuple parts => allLeaves parts
  | target => [target]

def allLeaves : List Target → List Target
  | [] => []
  | part :: parts => leaves part ++ allLeaves parts

end

/-- The leaves that are sent their part of a value that fits: a deposit fails at the first one that
takes no values. -/
def reached (target : Target) : List Target :=
  target.leaves.takeWhile accepts

/-- The deposit of a value that fits leaves all slots, sequences and external targets as they were,
and calls no external target. -/
def WritesNothing (F σ : Type) (target : Target) : Prop :=
  ∀ value : Value F, target.Fits value → ∀ world : World F σ,
    (∀ cell, ((deposit target value).outcome world).2.content cell = world.content cell) ∧
      ((deposit target value).outcome world).2.events = world.events

theorem kind_eq_discard_iff (target : Target) : target.kind = .discard ↔ target = .discard := by
  cases target <;> simp [kind]

mutual

theorem ne_tuple_of_mem_leaves : ∀ (target : Target) (parts : List Target),
    .tuple parts ∉ target.leaves
  | .tuple inner, parts => ne_tuple_of_mem_allLeaves inner parts
  | .discard, _ | .slot _ _, _ | .sequence _ _, _ | .external _ _ _, _ | .unusable _ _, _ => by
      simp [leaves]

theorem ne_tuple_of_mem_allLeaves : ∀ (inner parts : List Target), .tuple parts ∉ allLeaves inner
  | [], _ => by simp [allLeaves]
  | part :: inner, parts => by
      rw [allLeaves, List.mem_append, not_or]
      exact ⟨ne_tuple_of_mem_leaves part parts, ne_tuple_of_mem_allLeaves inner parts⟩

end

mutual

theorem map_target_arrivals : ∀ (target : Target) (value : Value F), target.Fits value →
    (target.arrivals value).map Arrival.target = target.leaves
  | .tuple parts, value, fits => by
      obtain ⟨components, same, takes⟩ := (takes_tuple_iff _ parts value).mp fits
      rw [same, arrivals, if_pos takes.length_eq]
      exact map_target_allArrivals parts components takes
  | .discard, _, _ | .slot _ _, _, _ | .sequence _ _, _, _ | .external _ _ _, _, _
  | .unusable _ _, _, _ => by
      simp only [arrivals, leaves, List.map_cons, List.map_nil]

theorem map_target_allArrivals : ∀ (parts : List Target) (components : List (Value F)),
    TakesAll (fun _ _ => True) parts components →
      (allArrivals parts components).map Arrival.target = allLeaves parts
  | [], [], _ => rfl
  | part :: parts, component :: components, takes => by
      rw [allArrivals, allLeaves, List.map_append, map_target_arrivals part component takes.1,
        map_target_allArrivals parts components takes.2]
  | [], _ :: _, takes => takes.elim
  | _ :: _, [], takes => takes.elim

end

mutual

def blank : Target → Value F
  | .tuple parts => .bundle (blanks parts)
  | _ => .null

def blanks : List Target → List (Value F)
  | [] => []
  | part :: parts => blank part :: blanks parts

end

mutual

theorem fits_blank : ∀ target : Target, target.Fits (blank target : Value F)
  | .tuple parts => takesAll_blanks parts
  | .discard | .slot _ _ | .sequence _ _ | .external _ _ _ | .unusable _ _ => trivial

theorem takesAll_blanks : ∀ parts : List Target,
    TakesAll (fun _ _ => True) parts (blanks parts : List (Value F))
  | [] => trivial
  | part :: parts => ⟨fits_blank part, takesAll_blanks parts⟩

end

mutual

theorem arrivals_blank : ∀ target : Target,
    target.arrivals (blank target : Value F) = target.leaves.map fun leaf => ⟨leaf, .null⟩
  | .tuple parts => by
      have length : (blanks parts : List (Value F)).length = parts.length :=
        (takesAll_blanks parts).length_eq
      rw [blank, arrivals, if_pos length]
      exact allArrivals_blanks parts
  | .discard | .slot _ _ | .sequence _ _ | .external _ _ _ | .unusable _ _ => rfl

theorem allArrivals_blanks : ∀ parts : List Target,
    allArrivals parts (blanks parts : List (Value F)) =
      (allLeaves parts).map fun leaf => ⟨leaf, .null⟩
  | [] => rfl
  | part :: parts => by
      rw [blanks, allArrivals, allLeaves, List.map_append, arrivals_blank part,
        allArrivals_blanks parts]

end

end Target

theorem outcome_depositEach_of_discards {arrivals : List (Arrival F)}
    (discards : ∀ leaf ∈ (arrivals.map Arrival.target).takeWhile Target.accepts, leaf = .discard)
    (world : World F σ) : ((Arrival.depositEach arrivals).outcome world).2 = world := by
  induction arrivals with
  | nil => rfl
  | cons arrival rest ih =>
      obtain ⟨target, value⟩ := arrival
      cases accepts : target.accepts with
      | false =>
          cases target with
          | unusable type likeness => rfl
          | _ => cases accepts
      | true =>
          rw [List.map_cons, List.takeWhile_cons_of_pos accepts, List.forall_mem_cons] at discards
          have here : target = .discard := discards.1
          subst here
          exact ih discards.2

namespace World

/-- A null value has been written, or something was seen. -/
def Marked (world : World F σ) : Prop :=
  world.events ≠ [] ∨ (∃ key, world.slot key = .null) ∨ ∃ key, world.sequence key = [.null]

end World

theorem marked_of_deposit_null {target : Target} (accepts : target.accepts = true)
    (writes : target ≠ .discard) (leaf : ∀ parts, target ≠ .tuple parts) (world : World F σ) :
    ((deposit target .null).outcome world).2.Marked := by
  cases target with
  | discard => exact absurd rfl writes
  | slot key name =>
      refine Or.inr (Or.inl ⟨key, ?_⟩)
      exact (world.slot_setSlot key key .null).trans (if_pos rfl)
  | sequence key name =>
      refine Or.inr (Or.inr ⟨key, ?_⟩)
      exact (world.sequence_setSequence key key [.null]).trans (if_pos rfl)
  | external key name hook =>
      have seen : (world.events ++ [.captured key (world.written .null)]) ≠ [] := by simp
      rw [deposit]
      cases hook (Value.typeName (F := F) .null) (Value.likeness (F := F) .null) with
      | none => exact Or.inl seen
      | some message => exact Or.inl seen
  | tuple parts => exact absurd rfl (leaf parts)
  | unusable type likeness => cases accepts

theorem deposit_null_preserves_marked (target : Target) :
    Preserves (World.Marked (F := F) (σ := σ)) (deposit target .null) := by
  cases target with
  | discard => exact preserves_pure _
  | tuple parts => exact preserves_throw _
  | unusable type likeness => exact preserves_throw _
  | _ => exact Preserves.of_outcome fun world _ =>
      marked_of_deposit_null rfl (by simp) (by simp) world

theorem depositEach_null_preserves_marked (leaves : List Target) :
    Preserves (World.Marked (F := F) (σ := σ))
      (Arrival.depositEach (leaves.map fun leaf => ⟨leaf, .null⟩)) := by
  induction leaves with
  | nil => exact preserves_pure _
  | cons leaf rest ih => exact (deposit_null_preserves_marked leaf).bind fun _ => ih

/-- One target that writes, before any that takes no values, leaves a mark. -/
theorem marked_of_depositEach_null {leaves : List Target}
    (single : ∀ parts, .tuple parts ∉ leaves)
    (writes : ∃ leaf ∈ leaves.takeWhile Target.accepts, leaf ≠ .discard) (world : World F σ) :
    ((Arrival.depositEach (leaves.map fun leaf => ⟨leaf, .null⟩)).outcome world).2.Marked := by
  induction leaves with
  | nil => simp at writes
  | cons leaf rest ih =>
      cases accepts : leaf.accepts with
      | false => simp [accepts] at writes
      | true =>
          rw [List.takeWhile_cons_of_pos accepts, List.exists_mem_cons_iff] at writes
          by_cases discards : leaf = .discard
          · rcases writes with here | later
            · exact absurd discards here
            · have others : ∀ parts, .tuple parts ∉ rest :=
                fun parts member => single parts (List.mem_cons_of_mem _ member)
              subst discards
              exact ih others later
          · have alone : ∀ parts, leaf ≠ .tuple parts := by
              intro parts same
              exact single parts (by simp [same])
            have first := marked_of_deposit_null accepts discards alone world
            rw [List.map_cons, Arrival.depositEach, outcome_bind]
            generalize (deposit leaf Value.null).outcome world = reached at first
            obtain ⟨_ | _, middle⟩ := reached
            · exact first
            · exact (depositEach_null_preserves_marked rest).outcome first

namespace Target

/-- A target writes nothing exactly when all leaves that are reached discard. -/
theorem writesNothing_iff (target : Target) (client : σ) :
    target.WritesNothing F σ ↔ ∀ leaf ∈ target.reached, leaf = .discard := by
  constructor
  · intro silent
    by_contra some_write
    have writes : ∃ leaf ∈ target.leaves.takeWhile accepts, leaf ≠ .discard := by
      simpa only [reached, not_forall, exists_prop] using some_write
    have marked := marked_of_depositEach_null (F := F) (target.ne_tuple_of_mem_leaves) writes
      { client }
    rw [← arrivals_blank, ← deposit_eq_depositEach] at marked
    obtain ⟨contents, events⟩ := silent target.blank target.fits_blank { client }
    rcases marked with seen | ⟨key, slot⟩ | ⟨key, sequence⟩
    · exact seen events
    · have unbound := contents (.slot key)
      rw [World.content, slot] at unbound
      cases unbound
    · have empty := contents (.sequence key)
      rw [World.content, sequence] at empty
      cases empty
  · intro discards value fits world
    have unchanged : ((deposit target value).outcome world).2 = world := by
      rw [deposit_eq_depositEach]
      refine outcome_depositEach_of_discards ?_ world
      rw [map_target_arrivals target value fits]
      exact discards
    rw [unchanged]
    exact ⟨fun _ => rfl, rfl⟩

end Target

namespace Report

theorem discarded_warn (report : Report) (warning : String) :
    (report.warn warning).discarded = report.discarded := by
  unfold warn
  split <;> rfl

theorem discarded_warnIf (report : Report) (condition : Bool) (warning : String) :
    (report.warnIf condition warning).discarded = report.discarded := by
  cases condition
  · rfl
  · exact report.discarded_warn warning

theorem discarded_withWarnings (report : Report) :
    report.withWarnings.discarded = report.discarded := by
  unfold withWarnings
  split
  · exact report.discarded_warn _
  · rw [discarded_warnIf]
    cases report.blockIndex with
    | none => exact report.discarded_warn _
    | some index => exact report.discarded_warnIf _ _

theorem mem_discarded_foldl_addStep (steps : List (Step F)) (first index : Nat) (report : Report) :
    index ∈ ((summarizeFrom first steps).foldl addStep report).discarded ↔
      index ∈ report.discarded ∨
        ∃ place step, steps[place]? = some step ∧ step.target = .discard ∧
          index = first + place := by
  induction steps generalizing first report with
  | nil => simp [summarizeFrom]
  | cons step rest ih =>
      have listed : index ∈ (report.addStep (step.summary first)).discarded ↔
          index ∈ report.discarded ∨ (step.target = .discard ∧ index = first) := by
        rw [← Target.kind_eq_discard_iff]
        by_cases discards : step.target.kind = .discard <;> simp [addStep, Step.summary, discards]
      rw [summarizeFrom, List.foldl_cons, ih, listed, or_assoc]
      refine or_congr_right ?_
      constructor
      · rintro (⟨discards, same⟩ | ⟨place, other, found, discards, same⟩)
        · exact ⟨0, step, rfl, discards, same⟩
        · exact ⟨place + 1, other, found, discards, by omega⟩
      · rintro ⟨place, other, found, discards, same⟩
        cases place with
        | zero =>
            cases found
            exact Or.inl ⟨discards, same⟩
        | succ place => exact Or.inr ⟨place, other, found, discards, by omega⟩

theorem mem_discarded_iff (steps : List (Step F)) (index : Nat) :
    index ∈ (ofSummaries (summarizeFrom 0 steps)).discarded ↔
      ∃ step, steps[index]? = some step ∧ step.target = .discard := by
  rw [ofSummaries, discarded_withWarnings, mem_discarded_foldl_addStep]
  simp

end Report

namespace Plan

variable {plan : Plan} {world after : World F σ}

/-- A report lists a step as discarding its values exactly when the target of the step is the one
that discards. Then the deposit of a value that fits writes nothing. The converse holds of a step
unless its target is another one of which all leaves that are reached discard. -/
theorem discarded_iff_writesNothing_iff {description : Description F σ}
    (made : (ofDescription description).outcome world = (.ok plan, after)) :
    (∀ ref ∈ plan.steps, (after.step? ref).isSome) ∧
    ∀ now : World F σ, (∀ ref ∈ plan.steps, (now.step? ref).isSome) →
      let report := Report.ofSummaries (plan.summariesIn now)
      (plan.stepsIn now).length = plan.size ∧ (∀ index ∈ report.discarded, index < plan.size) ∧
      ∀ index step, (plan.stepsIn now)[index]? = some step →
        (index ∈ report.discarded ↔ step.target = .discard) ∧
        (index ∈ report.discarded → step.target.WritesNothing F σ) ∧
        ((index ∈ report.discarded ↔ step.target.WritesNothing F σ) ↔
          (step.target = .discard ∨ ∃ leaf ∈ step.target.reached, leaf ≠ .discard)) := by
  refine ⟨isSome_step?_of_ofDescription made, ?_⟩
  intro now known report
  have length : (plan.stepsIn now).length = plan.size := length_stepsIn known
  have listed : ∀ index, index ∈ report.discarded ↔
      ∃ step, (plan.stepsIn now)[index]? = some step ∧ step.target = .discard :=
    Report.mem_discarded_iff (plan.stepsIn now)
  refine ⟨length, ?_, ?_⟩
  · intro index member
    obtain ⟨step, found, -⟩ := (listed index).mp member
    obtain ⟨inside, -⟩ := List.getElem?_eq_some_iff.mp found
    rwa [length] at inside
  · intro index step found
    have here : index ∈ report.discarded ↔ step.target = .discard := by
      rw [listed, found]
      simp
    have silent := step.target.writesNothing_iff (F := F) now.client
    have alone : step.target = .discard → ∀ leaf ∈ step.target.reached, leaf = .discard := by
      intro discards
      rw [discards]
      exact List.forall_mem_singleton.mpr rfl
    have some_write : (∃ leaf ∈ step.target.reached, leaf ≠ .discard) ↔
        ¬ ∀ leaf ∈ step.target.reached, leaf = .discard := by simp
    refine ⟨here, fun member => silent.mpr (alone (here.mp member)), ?_⟩
    rw [here, silent, some_write]
    tauto

def discardedTwice : Description Unit Unit := fun context =>
  Call.performAll (Meaning.standard fun _ _ => return .null) context
    [.draw .discard (.function ()), .define .discard (.function ())]

theorem discardedTwice_writesNothing_and_unlisted :
    ∃ plan after step, (ofDescription discardedTwice).outcome { client := () } =
        (.ok plan, after) ∧
      (plan.stepsIn after)[0]? = some step ∧ step.target.WritesNothing Unit Unit ∧
      0 ∉ (Report.ofSummaries (plan.summariesIn after)).discarded := by
  refine ⟨_, _, _, rfl, rfl, ?_, ?_⟩
  · have reached : (Target.tuple [.discard, .discard]).reached = [.discard, .discard] := rfl
    refine (Target.writesNothing_iff (.tuple [.discard, .discard]) ()).mpr ?_
    rw [reached]
    simp
  · exact List.not_mem_nil

/-- A step without a target, and one whose definition has a slot. -/
def discardedFirst : Description Unit Unit := fun context =>
  Call.performAll (Meaning.standard fun _ _ => return .null) context
    [.draw .discard (.function ()), .draw .discard (.function ()),
      .define (.slot "x" none) (.function ())]

/-- The report lists the first step only, which is the one that writes nothing. -/
theorem discarded_iff_writesNothing_discardedFirst :
    ∃ plan after, (ofDescription discardedFirst).outcome { client := () } = (.ok plan, after) ∧
      (Report.ofSummaries (plan.summariesIn after)).discarded = [0] ∧
      ∀ index step, (plan.stepsIn after)[index]? = some step →
        (index ∈ (Report.ofSummaries (plan.summariesIn after)).discarded ↔
          step.target.WritesNothing Unit Unit) := by
  refine ⟨_, _, rfl, rfl, ?_⟩
  have made : (ofDescription discardedFirst).outcome { client := () } = (.ok _, _) := rfl
  obtain ⟨known, laws⟩ := discarded_iff_writesNothing_iff made
  obtain ⟨length, -, each⟩ := laws _ known
  intro index step found
  refine (each index step found).2.2.mpr ?_
  match index with
  | 0 =>
      cases found
      exact Or.inl rfl
  | 1 =>
      cases found
      have member : .slot "x" none ∈ (Target.tuple [.discard, .slot "x" none]).reached :=
        List.mem_cons_of_mem _ List.mem_cons_self
      exact Or.inr ⟨_, member, by simp⟩
  | index + 2 => cases found

end Plan

end Bindery
