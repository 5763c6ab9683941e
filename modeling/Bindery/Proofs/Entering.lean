import Bindery.Proofs.Qualification
import Bindery.Proofs.Snapshot

set_option autoImplicit false

namespace Bindery

open Bindery.Action

variable {F σ : Type}

/-- References to steps of a context, from a place on. -/
def refsFrom (context place count : Nat) : List StepRef :=
  (List.range' place count).map (⟨context, ·⟩)

theorem refsFrom_succ (context place count : Nat) :
    refsFrom context place (count + 1) =
      ⟨context, place⟩ :: refsFrom context (place + 1) count := by
  rw [refsFrom, List.range'_succ, List.map_cons]
  rfl

/-- Chain a number of steps of a context, from a place on. What is done where the step after them is
due is left open, as `due`. That step and others after it make up the `left` steps that are left. -/
def chainUntil (meaning : Meaning F σ) (context left : Nat) (due : Action F σ (Value F)) :
    Nat → Nat → Action F σ (Value F)
  | 0, _ => due
  | count + 1, place => do
      let step ← currentStep ⟨context, place⟩
      let value ← step.generate meaning place
      requireMonadLike place value
      let now ← currentStep ⟨context, place⟩
      if now.hasBlock then
        meaning.map (.conclude step.target now.block)
          (concludeItem meaning step.target now.block) value
      else
        meaning.flatMap
          (.proceed step.target (refsFrom context (place + 1) (count + left)) (place + 1))
          (fun item => do
            let _ ← settleAndDeposit step.target item
            chainUntil meaning context left due count (place + 1))
          value

/-- Whatever the operations of objects do, a step is entered only for the items of the step before
it, and what is done there is the chain from that step on, numbered by its place. -/
theorem chainFrom_eq_chainUntil (meaning : Meaning F σ) (context left count place : Nat) :
    chainFrom meaning (refsFrom context place (count + (left + 1))) place =
      chainUntil meaning context (left + 1)
        (chainFrom meaning (refsFrom context (place + count) (left + 1)) (place + count))
        count place := by
  induction count generalizing place with
  | zero => rw [Nat.zero_add]; rfl
  | succ count ih =>
      have others : refsFrom context (place + 1) (count + (left + 1)) =
          ⟨context, place + 1⟩ :: refsFrom context (place + 2) (count + left) :=
        refsFrom_succ context (place + 1) (count + left)
      have due : place + (count + 1) = place + 1 + count := by omega
      rw [show count + 1 + (left + 1) = count + (left + 1) + 1 by omega, refsFrom_succ,
        chainFrom_cons, chainUntil, due, ← ih (place + 1)]
      refine bind_congr fun step => bind_congr fun value => bind_congr fun _ =>
        bind_congr fun now => ?_
      rw [others]
      rfl

/-- A step gives a value, and no block of results ends the chain there: it goes on with the items of
the value. -/
structure GoesOn (meaning : Meaning F σ) (ref : StepRef) (step : Step F) (value : Value F)
    (world after : World F σ) : Prop where
  found : world.step? ref = some step
  generated : (step.generate meaning ref.position).outcome world = (.ok value, after)
  open_ : ∃ now, after.step? ref = some now ∧ now.hasBlock = false

variable {call : F → Option (Value F) → Action F σ (Value F)} {context size : Nat}

/-- Go on from an item of a step with the steps after it, of a number in all. -/
def goOn (call : F → Option (Value F) → Action F σ (Value F)) (context size place : Nat)
    (step : Step F) (item : Value F) : Action F σ (Value F) := do
  let _ ← settleAndDeposit step.target item
  chainFrom (.standard call) (refsFrom context (place + 1) (size - (place + 1))) (place + 1)

/-- The chain of the steps of a context, from one of them on, comes to a later one. It is entered
for an item of a list, of an optional value, or of a deferred list that is forced, where the items
before it have come to their ends. `depth` is how deep a deferred result is forced, if it is. -/
inductive Enters (call : F → Option (Value F) → Action F σ (Value F)) (context size : Nat) :
    Option Nat → Nat → World F σ → Nat → World F σ → Prop where
  | here (depth : Option Nat) (place : Nat) (world : World F σ) :
      Enters call context size depth place world place world
  | listed {depth number : Option Nat} {traced : Bool} {place later : Nat} {step : Step F}
      {before others results : List (Value F)} {item settled : Value F}
      {world drawn passed entered reached : World F σ}
      (goes : GoesOn (.standard call) ⟨context, place⟩ step
        (.listMonad number traced (before ++ item :: others)) world drawn)
      (earlier : (recordApplied traced .flatMap (before ++ item :: others) >>= fun _ =>
        gather listItems (goOn call context size place step) before).outcome drawn =
          (.ok results, passed))
      (deposited : (settleAndDeposit step.target item).outcome passed = (.ok settled, entered))
      (inner : Enters call context size none (place + 1) entered later reached) :
      Enters call context size depth place world later reached
  | just {depth number : Option Nat} {place later : Nat} {step : Step F} {item settled : Value F}
      {world drawn entered reached : World F σ}
      (goes : GoesOn (.standard call) ⟨context, place⟩ step (.just number item) world drawn)
      (deposited : (settleAndDeposit step.target item).outcome drawn = (.ok settled, entered))
      (inner : Enters call context size depth (place + 1) entered later reached) :
      Enters call context size depth place world later reached
  | deferred {depth : Nat} {number : Option Nat} {place later : Nat} {step : Step F}
      {items before others results : List (Value F)} {stages : List (Stage F)}
      {item settled : Value F} {world drawn staged passed entered reached : World F σ}
      (goes : GoesOn (.standard call) ⟨context, place⟩ step (.deferred number items stages) world
        drawn)
      (run : (Value.runStages (.standard call) (Value.force (.standard call) depth) items
        stages).outcome drawn = (.ok (before ++ item :: others), staged))
      (earlier : (gather (Value.force (.standard call) depth) (goOn call context size place step)
        before).outcome staged = (.ok results, passed))
      (deposited : (settleAndDeposit step.target item).outcome passed = (.ok settled, entered))
      (inner : Enters call context size (some depth) (place + 1) entered later reached) :
      Enters call context size (some (depth + 1)) place world later reached

theorem Enters.le {depth : Option Nat} {place later : Nat} {world reached : World F σ}
    (enters : Enters call context size depth place world later reached) : place ≤ later := by
  induction enters with
  | here => exact Nat.le_refl _
  | listed _ _ _ _ ih | just _ _ _ ih | deferred _ _ _ _ _ ih => exact Nat.le_of_succ_le ih

/-- Where the chain goes on, it calls the operation of the value with the steps that are left. -/
theorem GoesOn.outcome_chainFrom {place : Nat} {step : Step F} {value : Value F}
    {world after : World F σ}
    (goes : GoesOn (.standard call) ⟨context, place⟩ step value world after)
    (complete : value.isMonadLike = true) (inside : place + 1 < size) :
    ∃ proceed : Continuation F,
      (fun item => proceed.apply (.standard call) item) = goOn call context size place step ∧
      (chainFrom (.standard call) (refsFrom context place (size - place)) place).outcome world =
        (Value.flatMap proceed (goOn call context size place step) value).outcome after := by
  obtain ⟨now, current, noBlock⟩ := goes.open_
  obtain ⟨count, left⟩ : ∃ count, size - (place + 1) = count + 1 := ⟨size - (place + 2), by omega⟩
  let proceed := Continuation.proceed (F := F) step.target
    (refsFrom context (place + 1) (count + 1)) (place + 1)
  have work : (fun item => proceed.apply (.standard call) item) =
      goOn call context size place step := by
    funext item
    rw [goOn, left]
    rfl
  refine ⟨proceed, work, ?_⟩
  rw [← work, show size - place = count + 1 + 1 by omega, refsFrom_succ, chainFrom_cons,
    outcome_bind, outcome_currentStep goes.found]
  simp only [outcome_bind, goes.generated, requireMonadLike, complete, ↓reduceIte, outcome_pure,
    outcome_currentStep current]
  simp only [refsFrom_succ, finishValue, noBlock, Bool.false_eq_true, ↓reduceIte, proceed]
  rfl

theorem outcome_goOn_bind {α : Type} {place : Nat} {step : Step F} {item settled : Value F}
    {world entered : World F σ}
    (deposited : (settleAndDeposit step.target item).outcome world = (.ok settled, entered))
    (next : Value F → Action F σ α) :
    (goOn call context size place step item >>= next).outcome world =
      (chainFrom (.standard call) (refsFrom context (place + 1) (size - (place + 1)))
        (place + 1) >>= next).outcome entered := by
  rw [goOn, bind_assoc, outcome_bind, deposited]

/-- An error for an item is the end of all, once the items before it have come to their ends. -/
theorem outcome_gather_of_error {itemsOf : Value F → Action F σ (List (Value F))}
    {run : ItemAction F σ} {before results : List (Value F)} {item : Value F}
    {world passed after : World F σ} {error : Error}
    (earlier : (gather itemsOf run before).outcome world = (.ok results, passed))
    (failed : (run item >>= itemsOf).outcome passed = (.error error, after))
    (others : List (Value F)) :
    (gather itemsOf run (before ++ item :: others)).outcome world = (.error error, after) := by
  rw [gather_append, outcome_bind, earlier]
  simp only [gather]
  rw [← bind_assoc, outcome_bind, outcome_bind, failed]

/-- What is made of the result of a chain: it is forced if a depth is given. -/
def resultsOf (call : F → Option (Value F) → Action F σ (Value F)) :
    Option Nat → Value F → Action F σ (List (Value F))
  | none, value => return [value]
  | some depth, value => value.force (.standard call) depth

theorem outcome_of_resultsOf_none {action : Action F σ (Value F)} {world after : World F σ}
    {error : Error}
    (failed : (action >>= resultsOf call none).outcome world = (.error error, after)) :
    action.outcome world = (.error error, after) := by
  rw [outcome_bind] at failed
  rcases ended : action.outcome world with ⟨_ | value, last⟩ <;> rw [ended] at failed
  · cases failed
    rfl
  · cases congrArg Prod.fst failed

/-- An error of a step that is entered ends the chain, and the forcing of its result, as it ends the
chain from that step on. Nothing else is done. -/
theorem Enters.outcome_error {depth : Option Nat} {place later : Nat} {world reached : World F σ}
    (enters : Enters call context size depth place world later reached) (inside : later < size)
    {error : Error} {after : World F σ}
    (failed : (chainFrom (.standard call) (refsFrom context later (size - later)) later).outcome
      reached = (.error error, after)) :
    (chainFrom (.standard call) (refsFrom context place (size - place)) place >>=
      resultsOf call depth).outcome world = (.error error, after) := by
  induction enters with
  | here depth place world => rw [outcome_bind, failed]
  | @listed depth number traced place later step before others results item settled world drawn
      passed entered reached goes earlier deposited inner ih =>
      obtain ⟨proceed, -, chained⟩ := goes.outcome_chainFrom rfl
        (Nat.lt_of_le_of_lt inner.le inside)
      have ended : (goOn call context size place step item >>= listItems).outcome passed =
          (.error error, after) := by
        rw [outcome_goOn_bind deposited, outcome_bind,
          outcome_of_resultsOf_none (ih inside failed)]
      rw [outcome_bind, chained, Value.flatMap, outcome_bind]
      rw [outcome_bind] at earlier
      rcases noted : (recordApplied traced .flatMap (before ++ item :: others) :
          Action F σ PUnit).outcome drawn with ⟨_ | _, start⟩ <;> rw [noted] at earlier
      · cases congrArg Prod.fst earlier
      · simp only
        rw [outcome_bind, outcome_gather_of_error earlier ended others]
  | just goes deposited inner ih =>
      obtain ⟨proceed, -, chained⟩ := goes.outcome_chainFrom rfl
        (Nat.lt_of_le_of_lt inner.le inside)
      rw [outcome_bind, chained, Value.flatMap, ← outcome_bind, outcome_goOn_bind deposited]
      exact ih inside failed
  | @deferred depth number place later step items before others results stages item settled world
      drawn staged passed entered reached goes run earlier deposited inner ih =>
      obtain ⟨proceed, work, chained⟩ := goes.outcome_chainFrom rfl
        (Nat.lt_of_le_of_lt inner.le inside)
      have ended : (goOn call context size place step item >>=
          Value.force (.standard call) depth).outcome passed = (.error error, after) := by
        rw [outcome_goOn_bind deposited]
        exact ih inside failed
      have forced : Value.force (.standard call) (depth + 1)
          (.deferred none items (stages ++ [⟨.flatMap, proceed⟩])) =
            Value.runStages (.standard call) (Value.force (.standard call) depth) items stages >>=
              gather (Value.force (.standard call) depth) (goOn call context size place step) := by
        rw [Value.force, Value.runStages_append, ← work]
        simp [Value.runStages, Value.runStage]
      rw [outcome_bind, chained]
      change (resultsOf call (some (depth + 1)) _).outcome drawn = _
      rw [resultsOf, forced, outcome_bind, run]
      exact outcome_gather_of_error earlier ended others

end Bindery
