import Bindery.Proofs.Calls
import Bindery.Proofs.Frame
import Bindery.Proofs.Qualification
import Bindery.Proofs.Snapshot

set_option autoImplicit false

namespace Bindery

open Bindery.Action

variable {F σ : Type}

/-- The functions of a step other than its source. -/
def Step.answering (step : Step F) : List (Callback F) :=
  step.block :: step.qualifiers.map Qualifier.callback

/-- References lead where they led in an earlier state. -/
def SameSteps (refs : List StepRef) (start now : World F σ) : Prop :=
  ∀ ref ∈ refs, now.step? ref = start.step? ref

theorem sameSteps_ignoresTargets (refs : List StepRef) (start : World F σ) :
    IgnoresTargets (SameSteps refs start) :=
  fun _ _ _ _ _ _ same => same

/-- One source gives a list and the other defers the same list, or both fail with one error. -/
inductive Defers : Except Error (Value F) × World F σ → Except Error (Value F) × World F σ → Prop
  | drawn (number other : Option Nat) (items : List (Value F)) (after : World F σ) :
      Defers (.ok (.listMonad number false items), after) (.ok (.deferred other items []), after)
  | failed (error : Error) (after : World F σ) : Defers (.error error, after) (.error error, after)

/-- Two meanings of the functions of some steps: the sources give lists in one and defer them in the
other, all other functions are the same, and none changes the steps. -/
structure Deferral (eager deferred : F → Option (Value F) → Action F σ (Value F))
    (refs : List StepRef) (start : World F σ) : Prop where
  sources : ∀ ref ∈ refs, ∀ step, start.step? ref = some step →
    ∀ now, SameSteps refs start now →
      Defers ((step.source.call (.standard eager) none).outcome now)
        ((step.source.call (.standard deferred) none).outcome now)
  answers : ∀ ref ∈ refs, ∀ step, start.step? ref = some step →
    ∀ callback ∈ step.answering, ∀ argument,
      callback.call (.standard eager) argument = callback.call (.standard deferred) argument
  keeps : ∀ ref ∈ refs, ∀ step, start.step? ref = some step →
    ∀ callback ∈ step.source :: step.answering, ∀ argument,
      Preserves (SameSteps refs start) (callback.call (.standard eager) argument)

abbrev CallLog (F : Type) := List (F × Option (Value F))

/-- Functions that log their calls. -/
def loggingCalls (call : F → Option (Value F) → Action F σ (Value F)) :
    F → Option (Value F) → Action F (σ × CallLog F) (Value F) :=
  logging (fun body argument _ => (body, argument)) call

def World.beforeCalls (world : World F σ) : World F (σ × CallLog F) :=
  world.withLog []

/-- Call the source of the first step and do nothing else. -/
def drawFirst (meaning : Meaning F σ) : List StepRef → Action F σ PUnit
  | [] => return ()
  | ref :: _ => do
      let step ← currentStep ref
      let _ ← step.source.call meaning none
      return ()

section Congruence

variable {first second : Meaning F σ} (target added : Target) {callback : Callback F}

theorem testItem_congr
    (same : ∀ argument, callback.call first argument = callback.call second argument) :
    testItem first target callback = testItem second target callback := by
  funext item
  simp only [testItem, same]

theorem pairItem_congr
    (same : ∀ argument, callback.call first argument = callback.call second argument) :
    pairItem first target added callback = pairItem second target added callback := by
  funext item
  simp only [pairItem, same]

theorem concludeItem_congr
    (same : ∀ argument, callback.call first argument = callback.call second argument) :
    concludeItem first target callback = concludeItem second target callback := by
  funext item
  simp only [concludeItem, same]

theorem qualifyItems_congr (qualifiers : List (Qualifier F)) (items : List (Value F))
    (same : ∀ callback ∈ qualifiers.map Qualifier.callback, ∀ argument,
      callback.call first argument = callback.call second argument) :
    qualifyItems first target qualifiers items = qualifyItems second target qualifiers items := by
  induction qualifiers generalizing target items with
  | nil => rfl
  | cons qualifier rest ih =>
      rw [List.map_cons, List.forall_mem_cons] at same
      cases qualifier with
      | filter predicate =>
          have tests : testItem first target predicate = testItem second target predicate :=
            testItem_congr target same.1
          simp only [qualifyItems, filterItems, tests, ih target _ same.2]
      | define added thunk =>
          have pairs : pairItem first target added thunk = pairItem second target added thunk :=
            pairItem_congr target added same.1
          simp only [qualifyItems, pairs, ih _ _ same.2]

end Congruence

section Invariants

variable {meaning : Meaning F σ} {invariant : World F σ → Prop}

theorem filterItems_preserves (ignores : IgnoresTargets invariant) (target : Target)
    (predicate : Callback F) (items : List (Value F))
    (keeps : ∀ argument, Preserves invariant (predicate.call meaning argument)) :
    Preserves invariant (filterItems meaning target predicate items) := by
  have tested : ∀ settled,
      Preserves invariant (retain (testItem meaning target predicate) settled) :=
    fun settled => retain_preserves settled fun item =>
      (deposit_preserves ignores target item).bind fun _ => keeps (some item)
  unfold filterItems
  split
  · exact (collect_preserves items (settle_preserves ignores.ignoresSupplies target)).bind tested
  · exact (preserves_pure items).bind tested

theorem qualifyItems_preserves (ignores : IgnoresTargets invariant) (target : Target)
    (qualifiers : List (Qualifier F)) (items : List (Value F))
    (keeps : ∀ callback ∈ qualifiers.map Qualifier.callback, ∀ argument,
      Preserves invariant (callback.call meaning argument)) :
    Preserves invariant (qualifyItems meaning target qualifiers items) := by
  induction qualifiers generalizing target items with
  | nil => exact preserves_pure _
  | cons qualifier rest ih =>
      rw [List.map_cons, List.forall_mem_cons] at keeps
      cases qualifier with
      | filter predicate =>
          exact (filterItems_preserves ignores target predicate items keeps.1).bind fun kept =>
            ih target kept keeps.2
      | define added thunk =>
          refine Preserves.bind (collect_preserves items fun item => ?_) fun paired =>
            ih _ paired keeps.2
          exact (settleAndDeposit_preserves ignores target item).bind fun _ =>
            (keeps.1 none).bind fun defined =>
              (settle_preserves ignores.ignoresSupplies added defined).bind fun _ =>
                preserves_pure _

theorem finishItems_preserves (ignores : IgnoresTargets invariant)
    {itemsOf : Value F → Action F σ (List (Value F))} {step : Step F} {rest : List StepRef}
    {index : Nat} (block : ∀ argument, Preserves invariant (step.block.call meaning argument))
    (proceeds : ∀ index, Preserves invariant (chainFrom meaning rest index >>= itemsOf))
    (items : List (Value F)) :
    Preserves invariant (finishItems meaning itemsOf step step rest index items) := by
  unfold finishItems
  split
  · exact collect_preserves items fun item =>
      (settleAndDeposit_preserves ignores step.target item).bind fun settled =>
        block (some settled)
  · cases rest with
    | nil => exact preserves_pure _
    | cons next others =>
        refine gather_preserves items fun item => ?_
        rw [Continuation.apply, bind_assoc]
        exact (settleAndDeposit_preserves ignores step.target item).bind fun _ =>
          proceeds (index + 1)

end Invariants

section Chain

variable {call : F → Option (Value F) → Action F σ (Value F)} {ref : StepRef} {step : Step F}
  {world after : World F σ}

theorem outcome_chainFrom_of_missing (missing : world.step? ref = none) (rest : List StepRef)
    (index : Nat) :
    (chainFrom (.standard call) (ref :: rest) index).outcome world =
      (.error .noSuchStep, world) := by
  rw [chainFrom_cons, outcome_bind]
  simp [currentStep, outcome_bind, missing]

theorem outcome_chainFrom_of_failed {error : Error} (found : world.step? ref = some step)
    (failed : (step.source.call (.standard call) none).outcome world = (.error error, after))
    (rest : List StepRef) (index : Nat) :
    (chainFrom (.standard call) (ref :: rest) index).outcome world = (.error error, after) := by
  rw [chainFrom_cons, outcome_bind, outcome_currentStep found]
  simp only [Step.generate, outcome_bind, failed]

theorem outcome_chainFrom_eager {number : Option Nat} {items : List (Value F)}
    (found : world.step? ref = some step)
    (drawn : (step.source.call (.standard call) none).outcome world =
      (.ok (.listMonad number false items), after))
    (stays : (qualifyItems (.standard call) step.ownTarget step.qualifiers items).Ends after
      (fun _ reached => reached.step? ref = some step) fun _ _ => True)
    (rest : List StepRef) (index : Nat) :
    (chainFrom (.standard call) (ref :: rest) index).outcome world =
      (qualifyItems (.standard call) step.ownTarget step.qualifiers items >>= fun kept =>
        finishItems (.standard call) listItems step step rest index kept >>= fun results =>
          pure (.listMonad (finishedNumber (qualifiedNumber number step.qualifiers) step rest) false
            results)).outcome after := by
  rw [chainFrom_cons, outcome_bind, outcome_currentStep found]
  simp only [Step.generate, outcome_bind, drawn, applyQualifiers_listMonad]
  unfold Ends at stays
  rcases kept : (qualifyItems (.standard call) step.ownTarget step.qualifiers items).outcome after
    with ⟨error | kept, reached⟩
  · rfl
  · rw [kept] at stays
    simp only [outcome_pure, requireMonadLike_listMonad, outcome_currentStep stays,
      finishValue_listMonad, outcome_bind]

theorem outcome_chainFrom_deferred {number : Option Nat} {items : List (Value F)}
    (found : world.step? ref = some step)
    (drawn : (step.source.call (.standard call) none).outcome world =
      (.ok (.deferred number items []), after))
    (stays : after.step? ref = some step) (rest : List StepRef) (index : Nat) :
    (chainFrom (.standard call) (ref :: rest) index).outcome world =
      (.ok (.deferred (finishedNumber (qualifiedNumber number step.qualifiers) step rest) items
        (qualifierStages step.ownTarget step.qualifiers ++ finishStages step step rest index)),
        after) := by
  have generated : (step.generate (.standard call) ref.position).outcome world =
      (.ok (.deferred (qualifiedNumber number step.qualifiers) items
        (qualifierStages step.ownTarget step.qualifiers)), after) := by
    rw [Step.generate, outcome_bind, drawn]
    simp [applyQualifiers_deferred]
  rw [chainFrom_cons, outcome_bind, outcome_currentStep found]
  simp only [outcome_bind, generated, requireMonadLike_deferred, outcome_pure,
    outcome_currentStep stays, finishValue_deferred]

end Chain

namespace Deferral

variable {eager deferred : F → Option (Value F) → Action F σ (Value F)} {refs : List StepRef}
  {start : World F σ}

theorem qualifyItems_keeps (deferral : Deferral eager deferred refs start) {ref : StepRef}
    (member : ref ∈ refs) {step : Step F} (found : start.step? ref = some step)
    (items : List (Value F)) :
    Preserves (SameSteps refs start)
      (qualifyItems (.standard eager) step.ownTarget step.qualifiers items) :=
  qualifyItems_preserves (sameSteps_ignoresTargets refs start) _ _ _ fun callback among =>
    deferral.keeps ref member step found callback (by simp [Step.answering, among])

theorem stays_qualifyItems (deferral : Deferral eager deferred refs start) {ref : StepRef}
    (member : ref ∈ refs) {step : Step F} (found : start.step? ref = some step)
    (items : List (Value F)) {after : World F σ} (reached : SameSteps refs start after) :
    (qualifyItems (.standard eager) step.ownTarget step.qualifiers items).Ends after
      (fun _ last => last.step? ref = some step) fun _ _ => True :=
  (deferral.qualifyItems_keeps member found items after reached).mono
    (fun _ _ kept => (kept ref member).trans found) fun _ _ _ => trivial

theorem drawn_or_failed (deferral : Deferral eager deferred refs start) {ref : StepRef}
    (member : ref ∈ refs) {step : Step F} (found : start.step? ref = some step) {now : World F σ}
    (same : SameSteps refs start now) :
    ∃ after, SameSteps refs start after ∧
      ((∃ number other items,
        (step.source.call (.standard eager) none).outcome now =
          (.ok (.listMonad number false items), after) ∧
        (step.source.call (.standard deferred) none).outcome now =
          (.ok (.deferred other items []), after)) ∨
      ∃ error,
        (step.source.call (.standard eager) none).outcome now = (.error error, after) ∧
        (step.source.call (.standard deferred) none).outcome now = (.error error, after)) := by
  have reached := (deferral.keeps ref member step found step.source (by simp) none).outcome same
  have defers := deferral.sources ref member step found now same
  generalize (step.source.call (.standard eager) none).outcome now = drawn at reached defers ⊢
  generalize (step.source.call (.standard deferred) none).outcome now = postponed at defers ⊢
  cases defers with
  | drawn number other items after =>
      exact ⟨after, reached, Or.inl ⟨number, other, items, rfl, rfl⟩⟩
  | failed error after => exact ⟨after, reached, Or.inr ⟨error, rfl, rfl⟩⟩

theorem chainFrom_keeps (deferral : Deferral eager deferred refs start) (rest : List StepRef)
    (listed : rest ⊆ refs) (index : Nat) :
    Preserves (SameSteps refs start) (chainFrom (.standard eager) rest index) := by
  have ignores := sameSteps_ignoresTargets refs start
  induction rest generalizing index with
  | nil => exact preserves_throw _
  | cons ref rest ih =>
      rw [List.cons_subset] at listed
      refine Preserves.of_outcome fun now same => ?_
      have present := same ref listed.1
      cases found : start.step? ref with
      | none =>
          rw [outcome_chainFrom_of_missing (present.trans found)]
          exact same
      | some step =>
          rw [found] at present
          have qualified := deferral.qualifyItems_keeps listed.1 found
          obtain ⟨after, reached, ⟨number, other, items, drawn, -⟩ | ⟨error, failed, -⟩⟩ :=
            deferral.drawn_or_failed listed.1 found same
          · rw [outcome_chainFrom_eager present drawn
              (deferral.stays_qualifyItems listed.1 found items reached)]
            refine Preserves.outcome (Preserves.bind (qualified items) fun kept =>
              Preserves.bind ?_ fun results => preserves_pure _) reached
            exact finishItems_preserves ignores
              (deferral.keeps ref listed.1 step found step.block (by simp [Step.answering]))
              (fun index => (ih listed.2 index).bind listItems_preserves) kept
          · rw [outcome_chainFrom_of_failed present failed]
            exact reached

theorem outcome_forced_finishItems (deferral : Deferral eager deferred refs start)
    {ref : StepRef} (member : ref ∈ refs) {step : Step F} (found : start.step? ref = some step)
    {rest : List StepRef} (listed : rest ⊆ refs) {fuel : Nat} (index : Nat)
    (items : List (Value F))
    (chained : ∀ now, SameSteps refs start now →
      (chainFrom (.standard deferred) rest (index + 1) >>=
          Value.force (.standard deferred) fuel).outcome now =
        (chainFrom (.standard eager) rest (index + 1) >>= listItems).outcome now)
    {now : World F σ} (same : SameSteps refs start now) :
    (finishItems (.standard deferred) (Value.force (.standard deferred) fuel) step step rest index
        items).outcome now =
      (finishItems (.standard eager) listItems step step rest index items).outcome now := by
  have ignores := sameSteps_ignoresTargets refs start
  unfold finishItems
  split
  · have block := concludeItem_congr step.target (deferral.answers ref member step found
      step.block (by simp [Step.answering]))
    rw [block]
  · cases rest with
    | nil => rfl
    | cons next others =>
        simp only [Continuation.apply]
        refine (outcome_gather_congr items (fun item world holds => ?_) (fun item => ?_) same).symm
        · rw [bind_assoc, bind_assoc]
          refine outcome_bind_congr fun settled last ran => ?_
          have arrived :=
            (settleAndDeposit_preserves ignores step.target item).outcome holds
          rw [ran] at arrived
          exact (chained last arrived).symm
        · refine fun world => Preserves.outcome ?_
          rw [bind_assoc]
          exact (settleAndDeposit_preserves ignores step.target item).bind fun _ =>
            (deferral.chainFrom_keeps _ listed _).bind listItems_preserves

/-- Forcing what was chained with deferred lists is chaining with eager lists. -/
theorem outcome_forced_chainFrom (deferral : Deferral eager deferred refs start)
    (rest : List StepRef) (listed : rest ⊆ refs) (fuel index : Nat) (enough : rest.length ≤ fuel)
    {now : World F σ} (same : SameSteps refs start now) :
    (chainFrom (.standard deferred) rest index >>= Value.force (.standard deferred) fuel).outcome
        now =
      (chainFrom (.standard eager) rest index >>= listItems).outcome now := by
  have ignores := sameSteps_ignoresTargets refs start
  induction rest generalizing fuel index now with
  | nil => rfl
  | cons ref rest ih =>
      rw [List.cons_subset] at listed
      obtain ⟨fuel, rfl⟩ : ∃ smaller, fuel = smaller + 1 := by
        cases fuel with
        | zero => simp at enough
        | succ smaller => exact ⟨smaller, rfl⟩
      have present := same ref listed.1
      cases found : start.step? ref with
      | none =>
          have missing := present.trans found
          simp only [outcome_bind, outcome_chainFrom_of_missing missing]
      | some step =>
          rw [found] at present
          have qualified := deferral.qualifyItems_keeps listed.1 found
          obtain ⟨after, reached, ⟨number, other, items, drawn, postponed⟩ |
              ⟨error, failed, refused⟩⟩ := deferral.drawn_or_failed listed.1 found same
          · have stays := deferral.stays_qualifyItems listed.1 found items reached
            have forced := outcome_chainFrom_deferred present postponed
              ((reached ref listed.1).trans found) rest index
            have chained := outcome_chainFrom_eager present drawn stays rest index
            calc (chainFrom (.standard deferred) (ref :: rest) index >>=
                    Value.force (.standard deferred) (fuel + 1)).outcome now
                = (qualifyItems (.standard deferred) step.ownTarget step.qualifiers items >>=
                    finishItems (.standard deferred) (Value.force (.standard deferred) fuel)
                      step step rest index).outcome after := by
                  simp only [outcome_bind, forced, Value.force, Value.runStages_append,
                    Value.runStages_qualifierStages, runStages_finishStages]
              _ = (qualifyItems (.standard eager) step.ownTarget step.qualifiers items >>=
                    finishItems (.standard eager) listItems step step rest index).outcome
                      after := by
                  rw [qualifyItems_congr _ _ _ fun callback among argument =>
                    (deferral.answers ref listed.1 step found callback
                      (by simp [Step.answering, among]) argument).symm]
                  refine outcome_bind_congr fun kept last ran => ?_
                  have arrived := (qualified items).outcome reached
                  rw [ran] at arrived
                  exact deferral.outcome_forced_finishItems listed.1 found listed.2 index kept
                    (fun _ same => ih listed.2 fuel _ (by simpa using enough) same) arrived
              _ = (chainFrom (.standard eager) (ref :: rest) index >>= listItems).outcome now := by
                  rw [outcome_bind (chainFrom _ _ _), chained, ← outcome_bind]
                  simp [bind_assoc, listItems]
          · simp only [outcome_bind, outcome_chainFrom_of_failed present failed,
              outcome_chainFrom_of_failed present refused]

theorem ends_chainFrom_eager (deferral : Deferral eager deferred refs start) (rest : List StepRef)
    (listed : rest ⊆ refs) (index : Nat) {now : World F σ} (same : SameSteps refs start now) :
    (chainFrom (.standard eager) rest index).Ends now
      (fun value _ => ∃ number items, value = .listMonad number false items) fun _ _ => True := by
  cases rest with
  | nil => trivial
  | cons ref rest =>
      rw [List.cons_subset] at listed
      have present := same ref listed.1
      cases found : start.step? ref with
      | none =>
          unfold Ends
          rw [outcome_chainFrom_of_missing (present.trans found)]
          trivial
      | some step =>
          rw [found] at present
          obtain ⟨after, reached, ⟨number, other, items, drawn, -⟩ | ⟨error, failed, -⟩⟩ :=
            deferral.drawn_or_failed listed.1 found same
          · refine Ends.of_outcome_eq ?_ (outcome_chainFrom_eager present drawn
              (deferral.stays_qualifyItems listed.1 found items reached) rest index)
            simp only [ends_bind, ends_pure]
            exact Ends.of_forall (fun kept last => Ends.of_forall
              (fun results final => ⟨_, results, rfl⟩) fun _ _ => trivial) fun _ _ => trivial
          · unfold Ends
            rw [outcome_chainFrom_of_failed present failed]
            trivial

theorem world_chainFrom_deferred (deferral : Deferral eager deferred refs start)
    (rest : List StepRef) (listed : rest ⊆ refs) (index : Nat) {now : World F σ}
    (same : SameSteps refs start now) :
    ((chainFrom (.standard deferred) rest index).outcome now).2 =
      ((drawFirst (.standard deferred) rest).outcome now).2 := by
  cases rest with
  | nil => rfl
  | cons ref rest =>
      rw [List.cons_subset] at listed
      have present := same ref listed.1
      cases found : start.step? ref with
      | none =>
          rw [outcome_chainFrom_of_missing (present.trans found)]
          simp [drawFirst, currentStep, outcome_bind, present.trans found]
      | some step =>
          rw [found] at present
          simp only [drawFirst, outcome_bind, outcome_currentStep present]
          obtain ⟨after, reached, ⟨number, other, items, -, postponed⟩ | ⟨error, -, refused⟩⟩ :=
            deferral.drawn_or_failed listed.1 found same
          · rw [outcome_chainFrom_deferred present postponed ((reached ref listed.1).trans found),
              postponed]
            rfl
          · rw [outcome_chainFrom_of_failed present refused, refused]

theorem noting (deferral : Deferral eager deferred refs start) (calls : CallLog F) :
    Deferral (loggingCalls eager) (loggingCalls deferred) refs (start.withLog calls) where
  sources ref member step found now same := by
    rw [loggingCalls, loggingCalls, outcome_call_logging, outcome_call_logging]
    have defers := deferral.sources ref member step found now.withoutLog same
    generalize (step.source.call (.standard eager) none).outcome now.withoutLog = drawn at *
    generalize (step.source.call (.standard deferred) none).outcome now.withoutLog = postponed
      at *
    cases defers with
    | drawn number other items after => exact .drawn number other items _
    | failed error after => exact .failed error _
  answers ref member step found callback among argument := by
    have same := deferral.answers ref member step found callback among argument
    cases callback with
    | function body =>
        change loggingCalls eager body argument = loggingCalls deferred body argument
        change eager body argument = deferred body argument at same
        unfold loggingCalls logging
        rw [same]
    | object type => rfl
  keeps ref member step found callback among argument := by
    refine Preserves.of_outcome fun now same => ?_
    rw [loggingCalls, outcome_call_logging]
    have plain : SameSteps refs start now.withoutLog := same
    exact (deferral.keeps ref member step found callback among argument).outcome plain

/-- Eager and deferred lists agree. The list that is chained with eager lists is the list that
forcing gives, and both end in one state; or both fail, with one error and in one state. -/
theorem outcome_forced_chainSteps (deferral : Deferral eager deferred refs start) (fuel : Nat)
    (enough : refs.length ≤ fuel) :
    ∃ result number after,
      (chainSteps (.standard eager) refs).outcome start =
        (result.map (.listMonad number false), after) ∧
      (chainSteps (.standard deferred) refs >>=
        Value.force (.standard deferred) fuel).outcome start = (result, after) := by
  have same : SameSteps refs start start := fun _ _ => rfl
  have forced := deferral.outcome_forced_chainFrom refs (List.Subset.refl _) fuel 0 enough same
  have shape := deferral.ends_chainFrom_eager refs (List.Subset.refl _) 0 same
  have unchanged := world_checkStructure refs start
  rw [chainSteps_eq_check, chainSteps_eq_check, bind_assoc, outcome_bind (checkStructure refs),
    outcome_bind (checkStructure refs)]
  rcases checked : (checkStructure refs).outcome start with ⟨error | _, reached⟩
  · exact ⟨.error error, none, reached, rfl, rfl⟩
  · rw [checked] at unchanged
    obtain rfl : reached = start := unchanged
    simp only [forced]
    rw [outcome_bind]
    unfold Ends at shape
    rcases chained : (chainFrom (.standard eager) refs 0).outcome reached with
      ⟨error | value, after⟩
    · exact ⟨.error error, none, after, rfl, rfl⟩
    · rw [chained] at shape
      obtain ⟨number, items, rfl⟩ := shape
      exact ⟨.ok items, number, after, rfl, rfl⟩

/-- Chaining with deferred lists checks the structure of the steps, calls the first source, and does
nothing else. -/
theorem world_chainSteps_deferred (deferral : Deferral eager deferred refs start) :
    ((chainSteps (.standard deferred) refs).outcome start).2 =
      match ((checkStructure refs).outcome start).1 with
      | .ok _ => ((drawFirst (.standard deferred) refs).outcome start).2
      | .error _ => start := by
  have unchanged := world_checkStructure refs start
  rw [chainSteps_eq_check, outcome_bind]
  rcases checked : (checkStructure refs).outcome start with ⟨error | _, reached⟩
  · rw [checked] at unchanged
    exact unchanged
  · rw [checked] at unchanged
    obtain rfl : reached = start := unchanged
    exact deferral.world_chainFrom_deferred refs (List.Subset.refl _) 0 fun _ _ => rfl

/-- Eager and deferred lists agree in all that a run does: in the result or the error, in the state
that is reached, and in the calls with their arguments. Before it is forced, a chain of deferred
lists has done no more than call the source of the first step. -/
theorem forced_chainSteps (deferral : Deferral eager deferred refs start) (fuel : Nat)
    (enough : refs.length ≤ fuel) :
    (∃ result number after,
      (chainSteps (.standard (loggingCalls eager)) refs).outcome start.beforeCalls =
        (result.map (.listMonad number false), after) ∧
      (chainSteps (.standard (loggingCalls deferred)) refs >>=
        Value.force (.standard (loggingCalls deferred)) fuel).outcome start.beforeCalls =
          (result, after)) ∧
    ((chainSteps (.standard (loggingCalls deferred)) refs).outcome start.beforeCalls).2 =
      match ((checkStructure refs).outcome start.beforeCalls).1 with
      | .ok _ =>
          ((drawFirst (.standard (loggingCalls deferred)) refs).outcome start.beforeCalls).2
      | .error _ => start.beforeCalls :=
  ⟨(deferral.noting []).outcome_forced_chainSteps fuel enough,
    (deferral.noting []).world_chainSteps_deferred⟩

/-- Two steps, the first with a filter and a definition, the second with a block of results. All
sources are the function `true`, and all other functions are `false`. -/
def filteredPair : World Bool Unit :=
  let first : Step Bool :=
    { ownTarget := .slot "x" none
      source := .function true
      qualifiers := [.filter (.function false), .define (.slot "y" none) (.function false)] }
  let second : Step Bool :=
    { ownTarget := .sequence "z" none, source := .function true, block := .function false }
  { contexts := [[first, second]], client := () }

def fixedCall (drawn : Value Bool) :
    Bool → Option (Value Bool) → Action Bool Unit (Value Bool) :=
  fun isSource _ => return if isSource then drawn else .bool true

theorem deferral_filteredPair :
    Deferral (fixedCall (.listMonad none false [.int 1, .int 2]))
      (fixedCall (.deferred none [.int 1, .int 2] [])) [⟨0, 0⟩, ⟨0, 1⟩] filteredPair where
  sources ref member step found now same := by
    simp only [List.mem_cons, List.not_mem_nil, or_false] at member
    rcases member with rfl | rfl <;> cases found <;> exact .drawn none none _ now
  answers ref member step found callback among argument := by
    simp only [List.mem_cons, List.not_mem_nil, or_false] at member
    have answering : callback = .function false ∨ callback = .object .null := by
      rcases member with rfl | rfl <;> cases found
      · simpa [Step.answering, Qualifier.callback, or_comm] using among
      · simpa [Step.answering] using Or.inl among
    rcases answering with rfl | rfl <;> rfl
  keeps ref member step found callback among argument := by
    cases callback with
    | function body => exact preserves_pure _
    | object type => exact preserves_throw _

theorem forced_chainSteps_filteredPair :
    ∃ number after,
      (chainSteps (.standard (loggingCalls
        (fixedCall (.listMonad none false [.int 1, .int 2])))) [⟨0, 0⟩, ⟨0, 1⟩]).outcome
          filteredPair.beforeCalls =
        (.ok (.listMonad number false (List.replicate 4 (.bool true))), after) ∧
      (chainSteps (.standard (loggingCalls
        (fixedCall (.deferred none [.int 1, .int 2] [])))) [⟨0, 0⟩, ⟨0, 1⟩] >>=
          Value.force (.standard (loggingCalls
            (fixedCall (.deferred none [.int 1, .int 2] [])))) 2).outcome
          filteredPair.beforeCalls =
        (.ok (List.replicate 4 (.bool true)), after) ∧
      after.log.length = 11 := by
  obtain ⟨⟨result, number, after, chained, forced⟩, -⟩ :=
    deferral_filteredPair.forced_chainSteps 2 (Nat.le_refl 2)
  have value : Except.ok (.listMonad none false (List.replicate 4 (.bool true))) =
      result.map (Value.listMonad number false) := congrArg (·.1) chained
  have made : 11 = after.log.length := congrArg (·.2.log.length) chained
  cases result with
  | error error => cases value
  | ok items =>
      simp only [Except.map, Except.ok.injEq, Value.listMonad.injEq] at value
      obtain ⟨-, -, rfl⟩ := value
      exact ⟨number, after, chained, forced, made.symm⟩

end Deferral

end Bindery
