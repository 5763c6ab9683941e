import Bindery.Proofs.Client

set_option autoImplicit false

namespace Bindery

open Bindery.Action

variable {F σ α : Type}

/-- The steps of a context at two times: there are no fewer later on, and all but the last of those
there were are what they were. -/
structure Grown (earlier later : List (Step F)) : Prop where
  length : earlier.length ≤ later.length
  same : ∀ position, position + 1 < earlier.length → later[position]? = earlier[position]?

namespace Grown

theorem refl (steps : List (Step F)) : Grown steps steps :=
  ⟨Nat.le_refl _, fun _ _ => rfl⟩

theorem trans {first second third : List (Step F)} (before : Grown first second)
    (after : Grown second third) : Grown first third := by
  refine ⟨Nat.le_trans before.length after.length, ?_⟩
  intro position inside
  have later : position + 1 < second.length := Nat.lt_of_lt_of_le inside before.length
  rw [after.same position later, before.same position inside]

theorem append (steps added : List (Step F)) : Grown steps (steps ++ added) := by
  refine ⟨by simp only [List.length_append]; omega, ?_⟩
  intro position inside
  have within : position < steps.length := by omega
  exact List.getElem?_append_left within

theorem modify_last (steps : List (Step F)) (change : Step F → Step F) :
    Grown steps (steps.modify (steps.length - 1) change) := by
  refine ⟨Nat.le_of_eq (List.length_modify _ _ _).symm, ?_⟩
  intro position inside
  have earlier : steps.length - 1 ≠ position := by omega
  exact List.getElem?_modify_ne _ _ earlier

end Grown

theorem Call.grown_amend (call : Call F) (steps : List (Step F)) :
    Grown steps (call.amend steps) := by
  cases call with
  | draw target source => exact Grown.append steps _
  | restrict predicate => exact Grown.modify_last steps _
  | define target thunk => exact Grown.modify_last steps _
  | conclude block => exact Grown.modify_last steps _

/-- The steps of all contexts at two times. -/
def AllGrown (earlier later : List (List (Step F))) : Prop :=
  ∀ context : Nat, Grown ((earlier[context]?).getD []) ((later[context]?).getD [])

namespace AllGrown

theorem refl (contexts : List (List (Step F))) : AllGrown contexts contexts :=
  fun _ => Grown.refl _

theorem trans {first second third : List (List (Step F))} (before : AllGrown first second)
    (after : AllGrown second third) : AllGrown first third :=
  fun context => (before context).trans (after context)

theorem create (contexts : List (List (Step F))) : AllGrown contexts (contexts ++ [[]]) := by
  intro context
  by_cases known : context < contexts.length
  · rw [List.getElem?_append_left known]
    exact Grown.refl _
  · have absent : contexts[context]? = none := List.getElem?_eq_none (by omega)
    rw [absent]
    exact Grown.append [] _

theorem amend (contexts : List (List (Step F))) (context : Nat) (call : Call F) :
    AllGrown contexts (contexts.modify context call.amend) := by
  intro other
  by_cases same : context = other
  · subst same
    rw [List.getElem?_modify_eq]
    cases contexts[context]? with
    | none => exact Grown.refl _
    | some steps => exact call.grown_amend steps
  · have unchanged : (contexts.modify context call.amend)[other]? = contexts[other]? :=
      List.getElem?_modify_ne _ _ same
    rw [unchanged]
    exact Grown.refl _

end AllGrown

/-- What has been recorded since some moments, and since the contexts were as given: each state is
a later one than those before it. -/
structure Growing (since : List (Moment F) × List (List (Step F)))
    (world : World F (σ × Record F)) : Prop where
  moments : ∃ later, world.record.moments = since.1 ++ later ∧
    (since.2 :: later.map (·.contexts) ++ [world.contexts]).Pairwise AllGrown

variable {since : List (Moment F) × List (List (Step F))} {world : World F (σ × Record F)}

theorem Growing.grown (growing : Growing since world) : AllGrown since.2 world.contexts := by
  obtain ⟨later, -, ordered⟩ := growing.moments
  rw [List.cons_append, List.pairwise_cons] at ordered
  exact ordered.1 world.contexts (List.mem_append_right _ (List.mem_singleton_self _))

theorem Growing.step (growing : Growing since world) {after : World F (σ × Record F)}
    (grown : AllGrown world.contexts after.contexts)
    (recorded : after.record.moments = world.record.moments) : Growing since after := by
  obtain ⟨later, split, ordered⟩ := growing.moments
  refine ⟨later, recorded.trans split, ?_⟩
  rw [List.pairwise_append] at ordered ⊢
  refine ⟨ordered.1, List.pairwise_singleton _ _, ?_⟩
  intro contexts member reached last
  rw [List.mem_singleton.mp last]
  exact (ordered.2.2 contexts member world.contexts (List.mem_singleton_self _)).trans grown

theorem Growing.opening (growing : Growing since world) : Growing since world.opening :=
  growing.step (AllGrown.create world.contexts) rfl

theorem Growing.note (growing : Growing since world) (place : Place F) (stood : List Nat) :
    Growing since ((Client.note place stood).outcome world).2 := by
  obtain ⟨later, split, ordered⟩ := growing.moments
  let moment : Moment F :=
    { place, around := stood, opened := world.opened, contexts := world.contexts,
      history := world.record.history }
  have recorded : ((Client.note place stood).outcome world).2.record.moments =
      since.1 ++ (later ++ [moment]) := by
    rw [← List.append_assoc, ← split]
    rfl
  refine ⟨later ++ [moment], recorded, ?_⟩
  have shown : since.2 :: (later ++ [moment]).map (·.contexts) =
      since.2 :: later.map (·.contexts) ++ [world.contexts] := by
    simp [moment]
  rw [shown, List.pairwise_append]
  refine ⟨ordered, List.pairwise_singleton _ _, ?_⟩
  intro contexts member reached last
  rw [List.mem_singleton.mp last]
  change AllGrown contexts world.contexts
  rcases List.mem_append.mp member with earlier | now
  · exact (List.pairwise_append.mp ordered).2.2 contexts earlier _ (List.mem_singleton_self _)
  · rw [List.mem_singleton.mp now]
    exact AllGrown.refl _

theorem growing_ignoresTargets (since : List (Moment F) × List (List (Step F))) :
    IgnoresTargets (Growing (σ := σ) since) :=
  fun _ _ _ _ _ _ growing => ⟨growing.moments⟩

theorem note_growing (place : Place F) (stood : List Nat) :
    Preserves (Growing (σ := σ) since) (Client.note place stood) :=
  Preserves.of_outcome fun _ growing => growing.note place stood

theorem submit_growing {meaning : Meaning F (σ × Record F)} {around : List Nat}
    (functions : ∀ (callback : Callback F) argument,
      Preserves (Growing since) (callback.call meaning argument))
    (named : Option Nat) (call : Call F) :
    Preserves (Growing (σ := σ) since) (Client.submit meaning around named call) := by
  have located : Preserves (Growing (σ := σ) since) (Client.locate named call.verb) :=
    fun world growing => (Client.ends_locate named call.verb world).mono
      (fun _ _ found => found.1 ▸ growing) fun _ _ same => same ▸ growing
  have performed : ∀ context,
      Preserves (Growing (σ := σ) since) (call.perform meaning context) := fun context =>
    Call.preserves_perform (growing_ignoresTargets since) context
      (fun reached growing => growing.step (AllGrown.amend reached.contexts context call) rfl)
      functions
  exact located.bind fun context => (note_growing _ _).bind fun _ => preserves_get.bind fun _ =>
    (performed context).bind fun _ => preserves_modify fun _ growing => ⟨growing.moments⟩

/-- Whatever a client does, steps that others follow stay as they are. -/
theorem growing_invariant :
    Client.Invariant fun since (_ : List Nat) => Growing (F := F) (σ := σ) since where
  ignores since _ := growing_ignoresTargets since
  between _ around := note_growing .between around
  function _ around := note_growing .function around
  aside _ _ _ _ := Preserves.of_outcome fun _ growing => ⟨growing.moments⟩
  create _ _ := preserves_get.bind fun _ =>
    (preserves_modify fun world growing =>
      growing.step (AllGrown.create world.contexts) rfl).bind fun _ => preserves_pure _
  submit functions since named call := submit_growing (functions since) named call
  opens _ around world growing := growing.opening.note .block (world.contexts.length :: around)
  closes _ _ _ _ _ _ reached := ⟨reached.moments⟩

theorem growing_start (world : World F (σ × Record F)) :
    Growing (world.record.moments, world.contexts) world :=
  ⟨[], by simp, by simpa using AllGrown.refl world.contexts⟩

/-- The step that a reference leads to among the steps of contexts. -/
def stepAt (contexts : List (List (Step F))) (ref : StepRef) : Option (Step F) :=
  ((contexts[ref.context]?).getD [])[ref.position]?

/-- All steps but the last are there, and none of them carries a block of results. -/
def Unblocked (refs : List StepRef) (contexts : List (List (Step F))) : Prop :=
  ∀ ref ∈ refs.dropLast, ∃ step, stepAt contexts ref = some step ∧ step.hasBlock = false

theorem eq_of_outcome_stepRefs {taken after : World F σ} {context : Nat} {refs : List StepRef}
    (took : (Context.stepRefs context).outcome taken = (.ok refs, after)) :
    refs = (List.range (taken.steps context).length).map (⟨context, ·⟩) := by
  have listed : (Context.stepRefs context).outcome taken =
      (.ok ((List.range (taken.steps context).length).map (⟨context, ·⟩)), taken) := rfl
  rw [listed] at took
  exact (Except.ok.inj (congrArg Prod.fst took)).symm

theorem mem_dropLast_range_map {context size : Nat} {ref : StepRef}
    (member : ref ∈ ((List.range size).map (StepRef.mk context)).dropLast) :
    ref.context = context ∧ ref.position + 1 < size := by
  rw [List.dropLast_eq_take, ← List.map_take, List.take_range, List.mem_map] at member
  obtain ⟨position, inside, rfl⟩ := member
  have below := List.mem_range.mp inside
  rw [List.length_map, List.length_range] at below
  exact ⟨rfl, show position + 1 < size by omega⟩

/-- References that were taken once lead to the same steps later on, up to the last of them. -/
theorem stepAt_of_grown {taken after : World F σ} {context : Nat} {refs : List StepRef}
    (took : (Context.stepRefs context).outcome taken = (.ok refs, after))
    {later : List (List (Step F))} (grown : AllGrown taken.contexts later) :
    ∀ ref ∈ refs.dropLast, stepAt later ref = taken.step? ref := by
  intro ref member
  rw [eq_of_outcome_stepRefs took] at member
  obtain ⟨own, before⟩ := mem_dropLast_range_map member
  have same := (grown ref.context).same ref.position
  rw [own] at same
  rw [stepAt, own, same before, World.step?, own]
  rfl

/-- Chain steps from one on, and look for a block of results on the last of them only. -/
def chainThrough (meaning : Meaning F σ) : List StepRef → Nat → Action F σ (Value F)
  | [], _ => throw .noSteps
  | [ref], index => chainFrom meaning [ref] index
  | ref :: next :: others, index => do
      let step ← currentStep ref
      let value ← step.generate meaning ref.position
      requireMonadLike index value
      meaning.flatMap (.proceed step.target (next :: others) (index + 1))
        (fun item => do
          let _ ← settleAndDeposit step.target item
          chainThrough meaning (next :: others) (index + 1))
        value

/-- Going on for each item in two ways that are the same wherever an invariant holds. -/
theorem Value.outcome_flatMap_congr {invariant : World F σ → Prop}
    (ignores : IgnoresTargets invariant) (continuation : Continuation F)
    {run other : ItemAction F σ}
    (same : ∀ item world, invariant world → (run item).outcome world = (other item).outcome world)
    (kept : ∀ item, Preserves invariant (run item)) (value : Value F) {world : World F σ}
    (holds : invariant world) :
    (Value.flatMap continuation run value).outcome world =
      (Value.flatMap continuation other value).outcome world := by
  cases value with
  | listMonad number traced items =>
      have recorded : Preserves invariant
          (recordApplied traced .flatMap items : Action F σ PUnit) :=
        (preserves_modify fun reached kept => ignores reached _ _ _ _ _ kept).ite
          (preserves_pure _)
      refine outcome_bind_congr fun _ after applied => ?_
      have reached : invariant after := by
        have outcome := recorded.outcome holds
        rwa [applied] at outcome
      rw [outcome_bind, outcome_bind, outcome_gather_congr items ?_ ?_ reached]
      · intro item now held
        rw [outcome_bind, outcome_bind, same item now held]
      · intro item now held
        exact ((kept item).bind listItems_preserves).outcome held
  | just number content => exact same content world holds
  | _ => rfl

/-- Where no step before the last can carry a block of results, none is found there. -/
theorem outcome_chainFrom_eq_chainThrough {call : F → Option (Value F) → Action F σ (Value F)}
    {invariant : World F σ → Prop} (ignores : IgnoresTargets invariant)
    (calls : ∀ body argument, Preserves invariant (call body argument)) {refs : List StepRef}
    (unblocked : ∀ world, invariant world → Unblocked refs world.contexts) (index : Nat)
    {world : World F σ} (holds : invariant world) :
    (chainFrom (.standard call) refs index).outcome world =
      (chainThrough (.standard call) refs index).outcome world := by
  induction refs generalizing index world with
  | nil => rfl
  | cons ref rest ih =>
      cases rest with
      | nil => rfl
      | cons next others =>
          have later : ∀ world, invariant world → Unblocked (next :: others) world.contexts := by
            intro reached held other member
            exact unblocked reached held other (List.mem_cons_of_mem _ member)
          rw [chainFrom_cons, chainThrough]
          refine outcome_bind_congr fun step after found => ?_
          have present : invariant after := by
            have outcome := (currentStep_preserves ref).outcome holds
            rwa [found] at outcome
          refine outcome_bind_congr fun value generated drawn => ?_
          have reached : invariant generated := by
            have outcome :=
              (ordinary_generate ref.position step invariant ignores calls).outcome present
            rwa [drawn] at outcome
          refine outcome_bind_congr fun _ checked required => ?_
          have required : invariant checked := by
            have outcome :=
              (ordinary_requireMonadLike index value invariant ignores calls).outcome reached
            rwa [required] at outcome
          obtain ⟨now, leads, bare⟩ := unblocked checked required ref List.mem_cons_self
          rw [outcome_bind, outcome_currentStep leads]
          simp only [finishValue, bare, Bool.false_eq_true, ↓reduceIte]
          refine Value.outcome_flatMap_congr ignores _ ?_ ?_ value required
          · intro item reached held
            rw [Continuation.apply]
            refine outcome_bind_congr fun settled last deposited => ?_
            have arrived : invariant last := by
              have outcome := (settleAndDeposit_preserves ignores step.target item).outcome held
              rwa [deposited] at outcome
            exact ih later (index + 1) arrived
          · intro item
            exact ordinary_apply _ item invariant ignores calls

theorem growing_chainSteps (text : F → Option (Value F) → Client F σ) (fuel : Nat)
    (around : List Nat) (refs : List StepRef) (now : World F (σ × Record F)) :
    Growing (now.record.moments, now.contexts)
      ((chainSteps (.standard (Client.answer text fuel around)) refs).outcome now).2 :=
  Preserves.outcome
    (ordinary_chainSteps refs _ (growing_ignoresTargets _)
      (growing_invariant.answer text fuel _ around)) (growing_start now)

theorem unblocked_of_checkBlockPlace {now : World F σ} {total : Nat} {refs : List StepRef}
    {index : Nat} (passed : ((checkBlockPlace total refs index).outcome now).1 = .ok ()) :
    Unblocked refs now.contexts := by
  induction refs generalizing index with
  | nil => exact nofun
  | cons ref rest ih =>
      cases rest with
      | nil => exact nofun
      | cons next others =>
          rw [checkBlockPlace, currentStep] at passed
          cases found : now.step? ref with
          | none => simp [outcome_bind, found] at passed
          | some step =>
              cases carried : step.hasBlock with
              | true => simp [outcome_bind, found, carried] at passed
              | false =>
                  simp only [outcome_bind, outcome_get, found, outcome_pure, carried,
                    Bool.false_eq_true, ↓reduceIte] at passed
                  intro other member
                  rcases List.mem_cons.mp member with rfl | later
                  · exact ⟨step, found, carried⟩
                  · exact ih passed other later

theorem unblocked_of_checkStructure {now : World F σ} {refs : List StepRef}
    (passed : ((checkStructure refs).outcome now).1 = .ok ()) : Unblocked refs now.contexts := by
  cases refs with
  | nil => exact nofun
  | cons ref rest => exact unblocked_of_checkBlockPlace passed

theorem Unblocked.of_grown {taken after : World F σ} {context : Nat} {refs : List StepRef}
    (took : (Context.stepRefs context).outcome taken = (.ok refs, after))
    {now later : List (List (Step F))} (unblocked : Unblocked refs now)
    (since : AllGrown taken.contexts now) (grown : AllGrown now later) : Unblocked refs later := by
  intro ref member
  obtain ⟨step, found, bare⟩ := unblocked ref member
  have before := stepAt_of_grown took since ref member
  have after := stepAt_of_grown took (since.trans grown) ref member
  exact ⟨step, after.trans (before.symm.trans found), bare⟩

theorem Unblocked.of_suffix {refs rest : List StepRef} {contexts : List (List (Step F))}
    (unblocked : Unblocked refs contexts) (suffix : rest <:+ refs) : Unblocked rest contexts := by
  obtain ⟨front, rfl⟩ := suffix
  intro ref member
  have nonempty : rest ≠ [] := by
    rintro rfl
    cases member
  have inside : ref ∈ (front ++ rest).dropLast := by
    rw [List.dropLast_append_of_ne_nil nonempty]
    exact List.mem_append_right front member
  exact unblocked ref inside

/-- References to the steps of a context lead to the same steps ever after, up to the last of them:
at all moments of a run, in whatever order its clients and functions make their calls, and even
while the steps are being chained. So when steps are chained whose structure was found in order,
none before the last comes to carry a block of results, and none is looked for there, be it at once
or where a deferred result is forced later on. -/
theorem Client.snapshots_frozen (text : F → Option (Value F) → Client F σ) (fuel : Nat)
    (around : List Nat) :
    (∀ (client : Client F σ) (start : World F (σ × Record F)),
      let ended := ((client.run (answer text fuel) around).outcome start).2;
      ∃ later, ended.record.moments = start.record.moments ++ later ∧
        (start.contexts :: later.map (·.contexts) ++ [ended.contexts]).Pairwise AllGrown) ∧
    ∀ (taken : World F (σ × Record F)) (context : Nat) (refs : List StepRef),
      (Context.stepRefs context).outcome taken = (.ok refs, taken) →
      (∀ later, AllGrown taken.contexts later →
        ∀ ref ∈ refs.dropLast, stepAt later ref = taken.step? ref) ∧
      ∀ now : World F (σ × Record F), AllGrown taken.contexts now.contexts →
        ((checkStructure refs).outcome now).1 = .ok () →
        let meaning := Meaning.standard (answer text fuel around);
        (let ended := ((Bindery.chainSteps meaning refs).outcome now).2;
          ∃ later, ended.record.moments = now.record.moments ++ later ∧
            ∀ contexts ∈ later.map (·.contexts) ++ [ended.contexts],
              AllGrown now.contexts contexts ∧ Unblocked refs contexts) ∧
        ∀ later : World F (σ × Record F), AllGrown now.contexts later.contexts →
          ∀ rest, rest <:+ refs → ∀ index,
            (chainFrom meaning rest index).outcome later =
              (chainThrough meaning rest index).outcome later := by
  refine ⟨?_, ?_⟩
  · intro client start
    have calls := growing_invariant.answer text fuel
    have kept := (growing_invariant.run calls client _ around).outcome (growing_start start)
    exact kept.moments
  · intro taken context refs took
    refine ⟨fun later grown => stepAt_of_grown took grown, ?_⟩
    intro now since passed
    have unblocked := unblocked_of_checkStructure passed
    refine ⟨?_, ?_⟩
    · obtain ⟨later, recorded, ordered⟩ :=
        (growing_chainSteps text fuel around refs now).moments
      refine ⟨later, recorded, ?_⟩
      intro contexts member
      rw [List.cons_append, List.pairwise_cons] at ordered
      have grown := ordered.1 contexts member
      exact ⟨grown, unblocked.of_grown took since grown⟩
    · intro later grown rest suffix index
      have calls := growing_invariant.answer text fuel (later.record.moments, later.contexts) around
      -- Whatever is reached from the later state is grown since, so no block can have come.
      have stays : ∀ world : World F (σ × Record F),
          Growing (later.record.moments, later.contexts) world →
          Unblocked rest world.contexts := by
        intro world growing
        exact (unblocked.of_grown took since (grown.trans growing.grown)).of_suffix suffix
      exact outcome_chainFrom_eq_chainThrough (growing_ignoresTargets _) calls stays index
        (growing_start later)

/-- Two steps. The source of the second attaches a block of results to the last step of the
context. -/
def Client.concluding : Bool → Option (Value Bool) → Client Bool Unit
  | true, _ => .register (some 0) (.conclude (.function false)) fun _ =>
      .finish (.ok (.listMonad none false [.int 2]))
  | false, _ => .finish (.ok (.listMonad none false [.int 1]))

/-- The state in which the two steps are registered and nothing is recorded yet. -/
def Client.concludingPair : World Bool (Unit × Record Bool) where
  contexts := [[{ ownTarget := .discard, source := .function false },
    { ownTarget := .discard, source := .function true }]]
  client := ((), {})

theorem Client.snapshots_frozen_concludingPair :
    let refs : List StepRef := [⟨0, 0⟩, ⟨0, 1⟩]
    let meaning := Meaning.standard (answer concluding 2 [])
    let ended := ((Bindery.chainSteps meaning refs).outcome concludingPair).2
    (stepAt ended.contexts ⟨0, 1⟩).map Step.hasBlock = some true ∧
      stepAt ended.contexts ⟨0, 0⟩ = concludingPair.step? ⟨0, 0⟩ ∧
      Unblocked refs ended.contexts ∧
      (chainFrom meaning refs 0).outcome concludingPair =
        (chainThrough meaning refs 0).outcome concludingPair := by
  intro refs meaning ended
  have taken : (Context.stepRefs 0).outcome concludingPair = (.ok refs, concludingPair) := rfl
  have passed : ((checkStructure refs).outcome concludingPair).1 = .ok () := rfl
  have attached : (stepAt ended.contexts ⟨0, 1⟩).map Step.hasBlock = some true := rfl
  obtain ⟨frozen, chained⟩ := (snapshots_frozen concluding 2 []).2 concludingPair 0 refs taken
  obtain ⟨⟨later, recorded, unblocked⟩, through⟩ :=
    chained concludingPair (AllGrown.refl _) passed
  obtain ⟨grown, bare⟩ := unblocked ended.contexts
    (List.mem_append_right _ (List.mem_singleton_self _))
  have same := frozen ended.contexts grown ⟨0, 0⟩ (by simp [refs])
  have whole := through concludingPair (AllGrown.refl _) refs List.suffix_rfl 0
  exact ⟨attached, same, bare, whole⟩

end Bindery
