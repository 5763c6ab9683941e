import Bindery.Proofs.Staging
import Bindery.Proofs.Turns

set_option autoImplicit false

namespace Bindery

open Bindery.Action

variable {F σ α : Type}

/-- An optional value. -/
def Value.IsMaybe (value : Value F) : Prop :=
  (∃ number content, value = .just number content) ∨ ∃ number, value = .nothing number

def Step.ownCalls (step : Step F) : List (Call F) :=
  .draw step.ownTarget step.source :: step.qualifiers.map Qualifier.call

/-- The calls that make a step, in the order in which their functions run. -/
def Step.calls (step : Step F) : List (Call F) :=
  step.ownCalls ++ if step.hasBlock then [.conclude step.block] else []

namespace Call

def callback : Call F → Callback F
  | .draw _ source => source
  | .restrict predicate => predicate
  | .define _ thunk => thunk
  | .conclude block => block

/-- Whether the function of a call is given an item. -/
def takesItem : Call F → Bool
  | .restrict _ | .conclude _ => true
  | .draw _ _ | .define _ _ => false

/-- A turn is one of the function of a call. -/
def Makes (call : Call F) (turn : Turn F σ) : Prop :=
  call.callback = .function turn.body ∧ turn.argument.isSome = call.takesItem

/-- The answers after which nothing more is called. -/
def StopsAt : Call F → Value F → Prop
  | .draw _ _, answer => ∃ number, answer = .nothing number
  | .restrict _, verdict => verdict.isTrue = false
  | .define _ _, _ | .conclude _, _ => False

/-- A turn of a call after which the next call is made. -/
def Passes (call : Call F) (turn : Turn F σ) : Prop :=
  call.Makes turn ∧ ∃ answer, turn.answer = .ok answer ∧ ¬ call.StopsAt answer

/-- A turn of a call that is the last turn of all. -/
def Stops (call : Call F) (turn : Turn F σ) : Prop :=
  call.Makes turn ∧ ∃ answer, turn.answer = .ok answer ∧ call.StopsAt answer

end Call

/-- All cells but these hold what they held, unless a turn changes them. -/
def Spared (cells : List Cell) (now after : World F (σ × List (Turn F σ))) : Prop :=
  ∀ cell ∉ cells, (∀ turn ∈ after.log, turn.after.content cell = turn.before.content cell) →
    after.content cell = now.content cell

/-- All calls have had their turn, each once and in order. Only the cells that they bind are
written, and those that were bound before. -/
structure Passed (program : List (Call F)) (bound : List Cell)
    (now after : World F (σ × List (Turn F σ))) : Prop where
  turns : Added (List.Forall₂ Call.Passes program) now after
  spared : Spared (bound ++ program.flatMap Call.cells) now after

/-- The calls have had their turn, each once and in order, up to the first one that stops. Only the
cells that the earlier ones bind are written, and those that were bound before. -/
def Stopped (program : List (Call F)) (bound : List Cell)
    (now after : World F (σ × List (Turn F σ))) : Prop :=
  ∃ earlier stop later, program = earlier ++ stop :: later ∧
    Added (fun turns => ∃ passed last, turns = passed ++ [last] ∧
      List.Forall₂ Call.Passes earlier passed ∧ stop.Stops last) now after ∧
    Spared (bound ++ earlier.flatMap Call.cells) now after

/-- How a straight line of calls ends: with a value after all of them, or with nothing after one
that stops. -/
inductive Exit (program : List (Call F)) (bound : List Cell)
    (yields : Value F → World F (σ × List (Turn F σ)) → Prop)
    (now : World F (σ × List (Turn F σ))) : Value F → World F (σ × List (Turn F σ)) → Prop
  | finished {number : Option Nat} {content : Value F} {after : World F (σ × List (Turn F σ))}
      (passed : Passed program bound now after) (yielded : yields (.just number content) after) :
      Exit program bound yields now (.just number content) after
  | stopped {number : Option Nat} {after : World F (σ × List (Turn F σ))}
      (stops : Stopped program bound now after) :
      Exit program bound yields now (.nothing number) after

/-- What the last step yields: the answer of its block, which has the last turn, or where there is
none the value of the step itself with its qualifiers applied, after the calls in front of it. -/
def Step.Yields (call : F → Option (Value F) → Action F σ (Value F)) (last : Step F)
    (front : List (Call F)) (bound : List Cell) (start : World F (σ × List (Turn F σ)))
    (value : Value F) (after : World F (σ × List (Turn F σ))) : Prop :=
  if last.hasBlock then
    ∃ number content turn, value = .just number content ∧ after.log.getLast? = some turn ∧
      turn.answer = .ok content
  else
    ∃ index now, Passed front bound start now ∧
      (last.generate (.standard (observing call)) index).outcome now = (.ok value, after)

theorem Step.cells_target_subset (step : Step F) (bound : List Cell) :
    step.target.cells ⊆ bound ++ step.ownCalls.flatMap Call.cells := by
  rw [Step.target, cells_foldl_retarget]
  exact List.subset_append_right _ _

theorem World.content_withoutLog {ν : Type} (world : World F (σ × List ν)) (cell : Cell) :
    world.withoutLog.content cell = world.content cell := by
  cases cell <;> rfl

section Lines

variable {program others : List (Call F)} {bound more cells : List Cell}
  {yields : Value F → World F (σ × List (Turn F σ)) → Prop}
  {now middle after : World F (σ × List (Turn F σ))} {value : Value F}

theorem Added.subset {such : List (Turn F σ) → Prop} (added : Added such now after) :
    now.log ⊆ after.log := by
  obtain ⟨turns, logged, -⟩ := added
  rw [logged]
  exact List.subset_append_left _ _

theorem Spared.mono (spared : Spared cells now after) (covers : cells ⊆ more) :
    Spared more now after :=
  fun cell outside => spared cell fun inside => outside (covers inside)

theorem Spared.trans (first : Spared cells now middle) (second : Spared cells middle after)
    (grown : middle.log ⊆ after.log) : Spared cells now after := by
  intro cell outside kept
  rw [second cell outside kept]
  exact first cell outside fun turn member => kept turn (grown member)

theorem Passed.refl (bound : List Cell) (now : World F (σ × List (Turn F σ))) :
    Passed [] bound now now where
  turns := .none rfl .nil
  spared := fun _ _ _ => rfl

theorem Passed.append (first : Passed program bound now middle)
    (second : Passed others (bound ++ program.flatMap Call.cells) middle after) :
    Passed (program ++ others) bound now after where
  turns := first.turns.append second.turns fun _ _ passed later => List.rel_append passed later
  spared := by
    rw [List.flatMap_append, ← List.append_assoc]
    exact (first.spared.mono (List.subset_append_left _ _)).trans second.spared second.turns.subset

theorem Passed.stopped (first : Passed program bound now middle)
    (second : Stopped others (bound ++ program.flatMap Call.cells) middle after) :
    Stopped (program ++ others) bound now after := by
  obtain ⟨earlier, stop, later, rfl, added, spared⟩ := second
  refine ⟨program ++ earlier, stop, later, by rw [List.append_assoc], ?_, ?_⟩
  · refine first.turns.append added ?_
    rintro turns _ before ⟨passed, last, rfl, others, stops⟩
    exact ⟨turns ++ passed, last, by rw [List.append_assoc], List.rel_append before others, stops⟩
  · rw [List.flatMap_append, ← List.append_assoc]
    exact (first.spared.mono (List.subset_append_left _ _)).trans spared added.subset

theorem Stopped.append (stops : Stopped program bound now after) (others : List (Call F)) :
    Stopped (program ++ others) bound now after := by
  obtain ⟨earlier, stop, later, rfl, ended⟩ := stops
  exact ⟨earlier, stop, later ++ others, by simp, ended⟩

theorem Passed.exit (first : Passed program bound now middle)
    (exit : Exit others (bound ++ program.flatMap Call.cells) yields middle value after) :
    Exit (program ++ others) bound yields now value after := by
  cases exit with
  | finished passed yielded => exact .finished (first.append passed) yielded
  | stopped stops => exact .stopped (first.stopped stops)

theorem Exit.imp {other : Value F → World F (σ × List (Turn F σ)) → Prop}
    (exit : Exit program bound yields now value after)
    (implies : yields value after → other value after) :
    Exit program bound other now value after := by
  cases exit with
  | finished passed yielded => exact .finished passed (implies yielded)
  | stopped stops => exact .stopped stops

theorem Step.Yields.of_passed {call : F → Option (Value F) → Action F σ (Value F)} {last : Step F}
    (passed : Passed program bound now middle)
    (yields : last.Yields call others (bound ++ program.flatMap Call.cells) middle value after) :
    last.Yields call (program ++ others) bound now value after := by
  unfold Step.Yields at yields ⊢
  split at yields
  · rwa [if_pos (by assumption)]
  · rw [if_neg (by assumption)]
    obtain ⟨index, reached, more, generated⟩ := yields
    exact ⟨index, reached, passed.append more, generated⟩

end Lines

section Quiet

variable {refs : List StepRef} {start now middle after : World F (σ × List (Turn F σ))}
  {cells bound : List Cell}

/-- Nothing was called, and only some cells were written. -/
structure Quiet (refs : List StepRef) (start : World F (σ × List (Turn F σ))) (cells : List Cell)
    (now after : World F (σ × List (Turn F σ))) : Prop where
  same : SameSteps refs start after
  log : after.log = now.log
  content : ∀ cell ∉ cells, after.content cell = now.content cell

theorem Quiet.passed (quiet : Quiet refs start cells now after) (covers : cells ⊆ bound) :
    Passed [] bound now after where
  turns := .none quiet.log .nil
  spared := by
    intro cell outside _
    refine quiet.content cell fun inside => outside ?_
    exact List.mem_append_left _ (covers inside)

theorem Quiet.trans (first : Quiet refs start cells now middle)
    (second : Quiet refs start cells middle after) : Quiet refs start cells now after where
  same := second.same
  log := second.log.trans first.log
  content cell outside := (second.content cell outside).trans (first.content cell outside)

theorem Quiet.mono {more : List Cell} (quiet : Quiet refs start cells now after)
    (covers : cells ⊆ more) : Quiet refs start more now after :=
  { quiet with content := fun cell outside =>
      quiet.content cell fun inside => outside (covers inside) }

theorem Exit.of_quiet {program : List (Call F)} {value : Value F}
    {yields : Value F → World F (σ × List (Turn F σ)) → Prop}
    (quiet : Quiet refs start cells now middle) (covers : cells ⊆ bound)
    (exit : Exit program bound yields middle value after) :
    Exit program bound yields now value after :=
  (quiet.passed covers).exit (by simpa using exit)

theorem Passed.of_quiet {program : List (Call F)} (passed : Passed program bound now middle)
    (quiet : Quiet refs start cells middle after)
    (covers : cells ⊆ bound ++ program.flatMap Call.cells) : Passed program bound now after := by
  simpa using passed.append (quiet.passed covers)

/-- Actions that keep all but the contents of some cells, and fail only as deposits do. -/
theorem ends_quiet {action : Action F (σ × List (Turn F σ)) α} (same : SameSteps refs start now)
    (kept : ∀ invariant, IgnoresTargets invariant → Preserves invariant action)
    (spares : ∀ contents : Contents F, (∀ entry ∈ contents, entry.1 ∉ cells) →
      Preserves (fun world => world.Holds contents) action)
    (fails : action.Ends now (fun _ _ => True) fun error _ => error.IsCapture) :
    action.Ends now (fun _ after => Quiet refs start cells now after)
      fun error _ => error.IsCapture := by
  have unchanged := kept (fun world => SameSteps refs start world ∧ world.log = now.log)
    (fun _ _ _ _ _ _ holds => holds) now ⟨same, rfl⟩
  have held := Ends.all fun cell : { cell // cell ∉ cells } =>
    spares [(cell.1, now.content cell.1)] (by simp [cell.2]) now (by simp [World.Holds])
  refine ((unchanged.and held).and fails).mono ?_ fun _ _ failed => failed.2
  rintro _ after ⟨⟨⟨steps, log⟩, contents⟩, -⟩
  refine ⟨steps, log, ?_⟩
  intro cell outside
  exact contents ⟨cell, outside⟩ _ List.mem_cons_self

theorem ends_deposit_quiet (target : Target) (value : Value F) (same : SameSteps refs start now) :
    (deposit target value).Ends now (fun _ after => Quiet refs start target.cells now after)
      fun error _ => error.IsCapture :=
  ends_quiet same (fun _ ignores => deposit_preserves ignores target value)
    (fun _ apart => deposit_preserves_holds target value apart)
    (ends_deposit_isCapture target value now)

theorem ends_settle_quiet (target : Target) (value : Value F) (same : SameSteps refs start now) :
    (settle target value).Ends now (fun _ after => Quiet refs start [] now after)
      fun error _ => error.IsCapture :=
  ends_quiet same (fun _ ignores => settle_preserves ignores.ignoresSupplies target value)
    (fun contents _ => settle_preserves (holds_ignoresSupplies contents) target value)
    (ends_settle_isCapture target value now)

theorem ends_settleAndDeposit_quiet (target : Target) (value : Value F)
    (same : SameSteps refs start now) :
    (settleAndDeposit target value).Ends now
      (fun _ after => Quiet refs start target.cells now after) fun error _ => error.IsCapture := by
  rw [settleAndDeposit, ends_bind]
  refine (ends_settle_quiet target value same).imp ?_
  intro settled middle settles
  rw [ends_bind]
  refine (ends_deposit_quiet target settled settles.same).imp ?_
  intro _ after deposits
  exact (settles.mono (List.nil_subset _)).trans deposits

end Quiet

section Operations

variable (call : F → Option (Value F) → Action F σ (Value F))

@[simp] theorem requireMonadLike_just (index : Int) (number : Option Nat) (content : Value F) :
    (requireMonadLike index (.just number content) : Action F σ PUnit) = pure () := rfl

@[simp] theorem requireMonadLike_nothing (index : Int) (number : Option Nat) :
    (requireMonadLike index (.nothing number) : Action F σ PUnit) = pure () := rfl

theorem applyFilter_just (index : Nat) (target : Target) (predicate : Callback F)
    (number : Option Nat) (content : Value F) :
    applyFilter (.standard call) index target predicate (.just number content) =
      (if target.hasSequence then settle target content else pure content) >>= fun settled =>
        testItem (.standard call) target predicate settled >>= fun verdict =>
          pure (if verdict.isTrue then .just (if target.hasSequence then none else number) settled
            else .nothing none) := by
  cases sequence : target.hasSequence <;>
    simp [applyFilter, sequence, Meaning.standard, Value.map, Value.filter]

theorem applyFilter_nothing (index : Nat) (target : Target) (predicate : Callback F)
    (number : Option Nat) :
    applyFilter (.standard call) index target predicate (.nothing number) =
      pure (.nothing none) := by
  cases sequence : target.hasSequence <;>
    simp [applyFilter, sequence, Meaning.standard, Value.map, Value.filter]

theorem applyDefinition_just (index : Nat) (target added : Target) (thunk : Callback F)
    (number : Option Nat) (content : Value F) :
    applyDefinition (.standard call) index target added thunk (.just number content) =
      pairItem (.standard call) target added thunk content >>= fun pair =>
        pure (.just none pair) := by
  simp [applyDefinition, Meaning.standard, Value.map]

theorem applyDefinition_nothing (index : Nat) (target added : Target) (thunk : Callback F)
    (number : Option Nat) :
    applyDefinition (.standard call) index target added thunk (.nothing number) =
      pure (.nothing number) := by
  simp [applyDefinition, Meaning.standard, Value.map]

def applyQualifier (meaning : Meaning F σ) (index : Nat) (target : Target) :
    Qualifier F → ItemAction F σ
  | .filter predicate => applyFilter meaning index target predicate
  | .define added thunk => applyDefinition meaning index target added thunk

theorem applyQualifiers_cons (meaning : Meaning F σ) (index : Nat) (target : Target)
    (qualifier : Qualifier F) (rest : List (Qualifier F)) (value : Value F) :
    applyQualifiers meaning index target (qualifier :: rest) value =
      applyQualifier meaning index target qualifier value >>=
        applyQualifiers meaning index (qualifier.retarget target) rest := by
  cases qualifier <;> rfl

theorem ends_applyQualifiers_nothing (index : Nat) (target : Target)
    (qualifiers : List (Qualifier F)) (number : Option Nat) (world : World F σ)
    {failure : Error → World F σ → Prop} :
    (applyQualifiers (.standard call) index target qualifiers (.nothing number)).Ends world
      (fun value after => (∃ last, value = .nothing last) ∧ after = world) failure := by
  induction qualifiers generalizing target number with
  | nil => exact ⟨⟨number, rfl⟩, rfl⟩
  | cons qualifier rest ih =>
      rw [applyQualifiers_cons]
      cases qualifier with
      | filter predicate =>
          rw [applyQualifier, applyFilter_nothing, pure_bind]
          exact ih target none
      | define added thunk =>
          rw [applyQualifier, applyDefinition_nothing, pure_bind]
          exact ih _ number

theorem finishValue_nothing (step now : Step F) (rest : List StepRef) (index : Nat)
    (number : Option Nat) :
    finishValue (.standard call) step now rest index (.nothing number) =
      pure (.nothing number) := by
  cases carried : now.hasBlock <;> cases rest <;>
    simp [finishValue, carried, Meaning.standard, Value.map, Value.flatMap]

theorem finishValue_just_of_block {now : Step F} (carried : now.hasBlock = true) (step : Step F)
    (rest : List StepRef) (index : Nat) (number : Option Nat) (content : Value F) :
    finishValue (.standard call) step now rest index (.just number content) =
      concludeItem (.standard call) step.target now.block content >>= fun result =>
        pure (.just none result) := by
  simp [finishValue, carried, Meaning.standard, Value.map]

theorem finishValue_just_cons {now : Step F} (open_ : now.hasBlock = false) (step : Step F)
    (next : StepRef) (others : List StepRef) (index : Nat) (number : Option Nat)
    (content : Value F) :
    finishValue (.standard call) step now (next :: others) index (.just number content) =
      settleAndDeposit step.target content >>= fun _ =>
        chainFrom (.standard call) (next :: others) (index + 1) := by
  simp [finishValue, open_, Continuation.apply, Meaning.standard, Value.flatMap]

end Operations

section Runs

variable {call : F → Option (Value F) → Action F σ (Value F)} {refs : List StepRef}
  {steps : List (Step F)} {start now : World F (σ × List (Turn F σ))} {bound : List Cell}

/-- A straight line of calls ends, and the steps are the same. -/
structure Exits (refs : List StepRef) (start : World F (σ × List (Turn F σ)))
    (program : List (Call F)) (bound : List Cell)
    (yields : Value F → World F (σ × List (Turn F σ)) → Prop)
    (now : World F (σ × List (Turn F σ))) (value : Value F)
    (after : World F (σ × List (Turn F σ))) : Prop where
  exit : Exit program bound yields now value after
  same : SameSteps refs start after

theorem Exits.of_quiet {program : List (Call F)}
    {through yields : Value F → World F (σ × List (Turn F σ)) → Prop} {cells : List Cell}
    {middle after : World F (σ × List (Turn F σ))} {value : Value F}
    (quiet : Quiet refs start cells now middle) (covers : cells ⊆ bound)
    (implies : through value after → yields value after)
    (exits : Exits refs start program bound through middle value after) :
    Exits refs start program bound yields now value after :=
  ⟨.of_quiet quiet covers (exits.exit.imp implies), exits.same⟩

/-- A call of a function has one turn, after which the steps are the same. -/
structure Called (made : Call F) (refs : List StepRef) (steps : List (Step F))
    (start now : World F (σ × List (Turn F σ))) (value : Value F)
    (after : World F (σ × List (Turn F σ))) : Prop where
  same : SameSteps refs start after
  turns : Added (fun turns => ∃ turn, turns = [turn] ∧ made.Makes turn ∧ turn.answer = .ok value ∧
    turn.Regular Value.IsMaybe refs steps) now after
  spared : Spared [] now after

theorem runs_called (made : Call F) (callable : ∃ body, made.callback = .function body)
    {argument : Option (Value F)} (given : argument.isSome = made.takesItem)
    (same : SameSteps refs start now) {failure : Error → World F (σ × List (Turn F σ)) → Prop} :
    (made.callback.call (.standard (observing call)) argument).Runs
      (Turn.Regular Value.IsMaybe refs steps) now (Called made refs steps start now) failure := by
  obtain ⟨body, function⟩ := callable
  rw [function]
  refine (runs_call (fun _ regular => regular.answered) body argument now).imp ?_
  rintro value after ⟨turn, leads, regular⟩
  have makes : made.Makes turn := by
    refine ⟨by rw [function, leads.body], ?_⟩
    rw [leads.argument, given]
  refine ⟨leads.sameSteps regular.unamended same,
    ⟨[turn], leads.log, turn, rfl, makes, leads.answer, regular⟩, ?_⟩
  intro cell _ kept
  have last : turn ∈ after.log := by
    rw [leads.log]
    exact List.mem_append_right _ List.mem_cons_self
  have unchanged := kept turn last
  rwa [leads.after, leads.before, World.content_withoutLog, World.content_withoutLog] at unchanged

theorem Called.passed {made : Call F} {value : Value F} {after : World F (σ × List (Turn F σ))}
    (called : Called made refs steps start now value after) (goes : ¬ made.StopsAt value) :
    Passed [made] bound now after where
  turns := by
    refine called.turns.imp ?_
    rintro _ ⟨turn, rfl, makes, answer, -⟩
    exact .cons ⟨makes, value, answer, goes⟩ .nil
  spared := called.spared.mono (List.nil_subset _)

theorem Called.stopped {made : Call F} {value : Value F} {after : World F (σ × List (Turn F σ))}
    (called : Called made refs steps start now value after) (stops : made.StopsAt value) :
    Stopped [made] bound now after := by
  refine ⟨[], made, [], rfl, called.turns.imp ?_, called.spared.mono (List.nil_subset _)⟩
  rintro _ ⟨turn, rfl, makes, answer, -⟩
  exact ⟨[], turn, rfl, .nil, makes, value, answer, stops⟩

theorem runs_applyQualifier {qualifier : Qualifier F} {target : Target}
    (callable : ∃ body, qualifier.callback = .function body) (covers : target.cells ⊆ bound)
    (index : Nat) (number : Option Nat) (content : Value F) (same : SameSteps refs start now) :
    (applyQualifier (.standard (observing call)) index target qualifier (.just number content)).Runs
      (Turn.Regular Value.IsMaybe refs steps) now
      (Exits refs start [qualifier.call] bound (fun _ _ => True) now)
      fun error _ => error.IsCapture := by
  cases qualifier with
  | filter predicate =>
      have settles : (if target.hasSequence then settle target content else pure content).Ends now
          (fun _ middle => Quiet refs start target.cells now middle)
          fun error _ => error.IsCapture := by
        split
        · exact (ends_settle_quiet target content same).imp fun _ _ quiet =>
            quiet.mono (List.nil_subset _)
        · exact ⟨same, rfl, fun _ _ => rfl⟩
      rw [applyQualifier, applyFilter_just]
      refine runs_bind_of_ends settles ?_
      intro settled middle settling
      rw [testItem, bind_assoc]
      refine runs_bind_of_ends (ends_deposit_quiet target settled settling.same) ?_
      intro _ reached depositing
      refine (runs_called (.restrict predicate) callable rfl depositing.same).bind_pure ?_
      intro verdict after called
      have quiet := settling.trans depositing
      cases passes : verdict.isTrue with
      | true =>
          have goes : ¬ (Call.restrict predicate).StopsAt verdict := by simp [Call.StopsAt, passes]
          exact ⟨.of_quiet quiet covers (.finished (called.passed goes) trivial), called.same⟩
      | false => exact ⟨.of_quiet quiet covers (.stopped (called.stopped passes)), called.same⟩
  | define added thunk =>
      rw [applyQualifier, applyDefinition_just, pairItem, bind_assoc]
      refine runs_bind_of_ends (ends_settleAndDeposit_quiet target content same) ?_
      intro settled middle depositing
      have settles : ∀ defined, Ordinary (observing call) (settle added defined >>= fun last =>
          pure (Value.just none (.bundle [settled, last]))) :=
        fun defined => (ordinary_settle added defined).bind fun _ => ordinary_pure _
      simp only [bind_assoc, pure_bind]
      refine (runs_called (.define added thunk) callable rfl depositing.same).bind
        (fun defined => (settles defined).lengthens) ?_
      intro defined reached called
      refine runs_bind_of_ends (ends_settle_quiet added defined called.same) ?_
      intro last after settling
      have passed : Passed [.define added thunk] bound middle after :=
        (called.passed not_false).of_quiet settling (List.nil_subset _)
      exact runs_pure _ ⟨.of_quiet depositing covers (.finished passed trivial), settling.same⟩

/-- Where the calls so far stop, the operations that follow have no turn. -/
theorem runs_bind_exit {behaves : Turn F σ → Prop}
    {failure : Error → World F (σ × List (Turn F σ)) → Prop} {program others : List (Call F)}
    {through yields : Value F → World F (σ × List (Turn F σ)) → Prop}
    {first : Action F (σ × List (Turn F σ)) (Value F)}
    {next : Value F → Action F (σ × List (Turn F σ)) (Value F)}
    (runs : first.Runs behaves now (Exits refs start program bound through now) failure)
    (lengthens : ∀ value, Lengthens (next value))
    (skips : ∀ number middle, SameSteps refs start middle →
      (next (.nothing number)).Ends middle
        (fun value after => (∃ last, value = .nothing last) ∧ after = middle) failure)
    (rest : ∀ number content middle, Passed program bound now middle →
      through (.just number content) middle → SameSteps refs start middle →
        (next (.just number content)).Runs behaves middle
          (Exits refs start others (bound ++ program.flatMap Call.cells) yields middle) failure) :
    (first >>= next).Runs behaves now
      (Exits refs start (program ++ others) bound yields now) failure := by
  refine runs.bind lengthens ?_
  rintro _ middle ⟨exit, same⟩
  -- After a stop the rest still runs, on nothing: the turns and the cells stay as they are.
  cases exit with
  | finished passed yielded =>
      refine (rest _ _ middle passed yielded same).imp ?_
      intro value after exits
      exact ⟨passed.exit exits.exit, exits.same⟩
  | stopped stops =>
      refine runs_of_ends ((skips _ middle same).imp ?_)
      rintro _ _ ⟨⟨last, rfl⟩, rfl⟩
      exact ⟨.stopped (stops.append others), same⟩

theorem runs_applyQualifiers {qualifiers : List (Qualifier F)} {target : Target}
    (callable : ∀ qualifier ∈ qualifiers, ∃ body, qualifier.callback = .function body)
    (covers : target.cells ⊆ bound) (index : Nat) (number : Option Nat) (content : Value F)
    (same : SameSteps refs start now) :
    (applyQualifiers (.standard (observing call)) index target qualifiers
      (.just number content)).Runs (Turn.Regular Value.IsMaybe refs steps) now
      (Exits refs start (qualifiers.map Qualifier.call) bound (fun _ _ => True) now)
      fun error _ => error.IsCapture := by
  induction qualifiers generalizing target number content now bound with
  | nil =>
      exact runs_pure _ ⟨.finished (.refl bound now) trivial, same⟩
  | cons qualifier rest ih =>
      rw [List.forall_mem_cons] at callable
      rw [applyQualifiers_cons, List.map_cons, ← List.singleton_append]
      refine runs_bind_exit (runs_applyQualifier callable.1 covers index number content same)
        ?_ ?_ ?_
      · exact fun value => (ordinary_applyQualifiers index _ rest value).lengthens
      · exact fun number middle _ => ends_applyQualifiers_nothing _ index _ rest number middle
      · intro number content middle _ _ reached
        refine ih callable.2 ?_ number content reached
        have cells := cells_foldl_retarget [qualifier] target
        rw [List.foldl_cons, List.foldl_nil] at cells
        rw [cells]
        exact List.append_subset.mpr ⟨List.Subset.trans covers (List.subset_append_left _ _),
          List.subset_append_right _ _⟩

theorem runs_generate_exits {step : Step F} (among : step ∈ steps) (callable : step.Callable)
    (index : Nat) (same : SameSteps refs start now) :
    (step.generate (.standard (observing call)) index).Runs
      (Turn.Regular Value.IsMaybe refs steps) now
      (Exits refs start step.ownCalls bound (fun value after =>
        (step.generate (.standard (observing call)) index).outcome now = (.ok value, after)) now)
      fun error _ => error.IsCapture := by
  have drawn : (step.source.call (.standard (observing call)) none).Runs
      (Turn.Regular Value.IsMaybe refs steps) now
      (Exits refs start [.draw step.ownTarget step.source] bound (fun _ _ => True) now)
      fun error _ => error.IsCapture := by
    refine (runs_called (.draw step.ownTarget step.source) callable.source rfl same).imp ?_
    intro value after called
    have isMaybe : value.IsMaybe := by
      obtain ⟨_, -, turn, -, makes, answer, regular⟩ := called.turns
      obtain ⟨given, found, maybe⟩ := regular.sources step among makes.1
        (Option.isNone_iff_eq_none.mp (by simpa [Call.takesItem] using makes.2))
      rw [answer, Except.ok.injEq] at found
      exact found ▸ maybe
    rcases isMaybe with ⟨number, content, rfl⟩ | ⟨number, rfl⟩
    · have goes : ¬ (Call.draw step.ownTarget step.source).StopsAt (.just number content) := nofun
      exact ⟨.finished (called.passed goes) trivial, called.same⟩
    · exact ⟨.stopped (called.stopped ⟨number, rfl⟩), called.same⟩
  have generated : (step.generate (.standard (observing call)) index).Runs
      (Turn.Regular Value.IsMaybe refs steps) now
      (Exits refs start ([.draw step.ownTarget step.source] ++ step.qualifiers.map Qualifier.call)
        bound (fun _ _ => True) now)
      fun error _ => error.IsCapture := by
    rw [Step.generate]
    refine runs_bind_exit drawn (fun value => (ordinary_applyQualifiers index _ _ value).lengthens)
      ?_ ?_
    · exact fun number middle _ => ends_applyQualifiers_nothing _ index _ _ number middle
    · intro number content middle _ _ reached
      refine runs_applyQualifiers callable.qualifiers ?_ index number content reached
      simp [Call.cells]
  refine generated.outcome.imp ?_
  intro value after exits
  exact ⟨exits.1.exit.imp fun _ => exits.2, exits.1.same⟩

theorem runs_finishValue_of_last {step : Step F} {begun : World F (σ × List (Turn F σ))}
    {position : Nat} {number : Option Nat} {content : Value F} (callable : step.Callable)
    (index : Nat)
    (drawn : (step.generate (.standard (observing call)) position).outcome begun =
      (.ok (.just number content), now))
    (same : SameSteps refs start now) :
    (finishValue (.standard (observing call)) step step [] index (.just number content)).Runs
      (Turn.Regular Value.IsMaybe refs steps) now
      (Exits refs start (if step.hasBlock then [.conclude step.block] else [])
        (bound ++ step.ownCalls.flatMap Call.cells) (step.Yields call [] bound begun) now)
      fun error _ => error.IsCapture := by
  cases carried : step.hasBlock with
  | true =>
      rw [finishValue_just_of_block _ carried, concludeItem, bind_assoc, if_pos rfl]
      refine runs_bind_of_ends (ends_settleAndDeposit_quiet step.target content same) ?_
      intro settled middle depositing
      refine (runs_called (.conclude step.block) (callable.block carried) rfl
        depositing.same).bind_pure ?_
      intro result after called
      have yields : step.Yields call [] bound begun (.just none result) after := by
        obtain ⟨_, logged, turn, rfl, -, answer, -⟩ := called.turns
        rw [Step.Yields, if_pos carried]
        exact ⟨none, result, turn, rfl, by simp [logged], answer⟩
      have covers := step.cells_target_subset bound
      exact ⟨.of_quiet depositing covers (.finished (called.passed not_false) yields), called.same⟩
  | false =>
      have yields : step.Yields call [] bound begun (.just number content) now := by
        rw [Step.Yields, carried]
        exact ⟨position, begun, .refl bound begun, drawn⟩
      rw [finishValue, carried]
      exact runs_pure _ ⟨.finished (.refl _ now) yields, same⟩

theorem runs_chainFrom_exits {rest : List StepRef} {left : List (Step F)} {last : Step F}
    (bound : List Cell) (leads : start.LeadsTo rest left) (ends : left.getLast? = some last)
    (blocks : misplacedBlock? left = none) (listed : rest ⊆ refs)
    (among : ∀ step ∈ left, step ∈ steps) (callable : ∀ step ∈ left, step.Callable) (index : Nat)
    (same : SameSteps refs start now) :
    (chainFrom (.standard (observing call)) rest index).Runs
      (Turn.Regular Value.IsMaybe refs steps) now
      (Exits refs start (left.flatMap Step.calls) bound
        (last.Yields call (left.dropLast.flatMap Step.calls) bound now) now)
      fun error _ => error.IsCapture := by
  -- No step before the last has a block, so each of them hands its one item on to the rest.
  induction leads generalizing bound index now with
  | nil => cases ends
  | @cons ref step rest left found others ih =>
      rw [List.cons_subset] at listed
      rw [List.forall_mem_cons] at among callable
      have current : ∀ {reached}, SameSteps refs start reached →
          (currentStep ref).Ends reached (fun current after => step = current ∧ reached = after)
            fun error _ => error.IsCapture :=
        fun same => ends_currentStep ((same ref listed.1).trans found)
      have program : (step :: left).flatMap Step.calls =
          step.ownCalls ++ ((if step.hasBlock then [.conclude step.block] else []) ++
            left.flatMap Step.calls) := by
        rw [List.flatMap_cons, Step.calls, List.append_assoc]
      rw [chainFrom_cons, program]
      refine runs_bind_of_ends (current same) ?_
      rintro _ _ ⟨rfl, rfl⟩
      refine runs_bind_exit (runs_generate_exits among.1 callable.1 ref.position same) ?_ ?_ ?_
      · intro value
        exact ((ordinary_requireMonadLike _ value).bind fun _ =>
          (ordinary_currentStep ref).bind fun current =>
            ordinary_finishValue step current rest index value).lengthens
      · intro number middle reached
        rw [requireMonadLike_nothing, pure_bind, ends_bind]
        refine (current reached).imp ?_
        rintro _ _ ⟨rfl, rfl⟩
        rw [finishValue_nothing]
        exact ⟨⟨number, rfl⟩, rfl⟩
      · intro number content middle passed drawn reached
        rw [requireMonadLike_just, pure_bind]
        refine runs_bind_of_ends (current reached) ?_
        rintro _ _ ⟨rfl, rfl⟩
        cases others with
        | nil =>
            obtain rfl : step = last := by simpa using ends
            rw [List.flatMap_nil, List.append_nil]
            exact runs_finishValue_of_last callable.1 index drawn reached
        | @cons next second others later foundNext rest =>
            obtain ⟨carried, blocks⟩ := misplacedBlock?_cons_cons blocks
            have front : (step :: second :: later).dropLast.flatMap Step.calls =
                step.ownCalls ++ (second :: later).dropLast.flatMap Step.calls := by
              rw [List.dropLast_cons_cons, List.flatMap_cons, Step.calls, carried,
                if_neg Bool.false_ne_true, List.append_nil]
            rw [finishValue_just_cons _ carried, carried, if_neg Bool.false_ne_true,
              List.nil_append, front]
            have covers := step.cells_target_subset bound
            refine runs_bind_of_ends (ends_settleAndDeposit_quiet step.target content reached) ?_
            intro settled deposited depositing
            have chained := ih (bound ++ step.ownCalls.flatMap Call.cells) (by simpa using ends)
              blocks listed.2 among.2 callable.2 (index + 1) depositing.same
            refine chained.imp ?_
            intro value after
            exact Exits.of_quiet depositing covers
              (Step.Yields.of_passed (passed.of_quiet depositing covers))

end Runs

/-- Chaining optional values makes the calls of the steps in their order, each once, up to the first
source that gives nothing or the first filter that fails, if there is one. Then the value is
nothing, and no cell has been written but by the calls before and by functions. If there is none,
all calls have been made, and the value is what the last step yields. -/
theorem exit_of_chainSteps {call : F → Option (Value F) → Action F σ (Value F)}
    {refs : List StepRef} {steps : List (Step F)} {last : Step F} {start : World F σ}
    (leads : start.LeadsTo refs steps) (ends : steps.getLast? = some last)
    (blocks : misplacedBlock? steps = none) (callable : ∀ step ∈ steps, step.Callable)
    (regular : ∀ turn ∈
      ((chainSteps (.standard (observing call)) refs).outcome (start.withLog [])).2.log,
      turn.Regular Value.IsMaybe refs steps)
    (captures : ∀ error,
      ((chainSteps (.standard (observing call)) refs).outcome (start.withLog [])).1 =
        .error error → ¬ error.IsCapture) :
    ∃ value after,
      (chainSteps (.standard (observing call)) refs).outcome (start.withLog []) =
        (.ok value, after) ∧
      Exit (steps.flatMap Step.calls) []
        (last.Yields call (steps.dropLast.flatMap Step.calls) [] (start.withLog []))
        (start.withLog []) value after := by
  have begun : (start.withLog ([] : List (Turn F σ))).LeadsTo refs steps := leads
  have nonempty : steps ≠ [] := by
    rintro rfl
    cases ends
  rw [outcome_chainSteps begun nonempty blocks] at regular captures ⊢
  have runs : (chainFrom (.standard (observing call)) refs 0).Runs
      (Turn.Regular Value.IsMaybe refs steps) (start.withLog [])
      (Exits refs (start.withLog []) (steps.flatMap Step.calls) []
        (last.Yields call (steps.dropLast.flatMap Step.calls) [] (start.withLog []))
        (start.withLog []))
      fun error _ => error.IsCapture :=
    runs_chainFrom_exits [] begun ends blocks (List.Subset.refl refs) (fun _ member => member)
      callable 0 fun _ _ => rfl
  unfold Runs Ends at runs
  rcases reached : (chainFrom (.standard (observing call)) refs 0).outcome (start.withLog []) with
    ⟨error | value, after⟩
  · rw [reached] at runs regular captures
    exact absurd (runs regular) (captures error rfl)
  · rw [reached] at runs regular
    exact ⟨value, after, rfl, (runs regular).exit⟩

def tentativeSteps : List (Step Bool) :=
  [{ ownTarget := .slot "x" none
     source := .function true
     qualifiers := [.define (.sequence "y" none) (.function false), .filter (.function false)] },
    { ownTarget := .slot "z" none, source := .function true, block := .function false }]

def tentativeStart : World Bool Nat :=
  World.setSlot { contexts := [tentativeSteps], client := 0 } "z" (.int 9)

def justCount (calls : Nat) : Value Bool :=
  .just none (.int calls)

/-- The source and the definition are called, and then the filter fails. The second step does not
begin, and its slot keeps what it held. -/
theorem exit_of_chainSteps_tentativeSteps :
    ∃ after,
      (chainSteps (.standard (observing (countingCall justCount))) [⟨0, 0⟩, ⟨0, 1⟩]).outcome
          (tentativeStart.withLog []) = (.ok (.nothing none), after) ∧
      Stopped (tentativeSteps.flatMap Step.calls) [] (tentativeStart.withLog []) after ∧
      after.log.map Turn.body = [true, false, false] ∧ after.content (.slot "z") = .int 9 := by
  have leads : tentativeStart.LeadsTo [⟨0, 0⟩, ⟨0, 1⟩] tentativeSteps := .cons rfl (.cons rfl .nil)
  have callable : ∀ step ∈ tentativeSteps, step.Callable := by
    intro step member
    simp only [tentativeSteps, List.mem_cons, List.not_mem_nil, or_false] at member
    rcases member with rfl | rfl
    · exact ⟨⟨true, rfl⟩, by simp [Qualifier.callback], by simp [Step.hasBlock, Callback.isNull]⟩
    · exact ⟨⟨true, rfl⟩, by simp, fun _ => ⟨false, rfl⟩⟩
  have sources : ∀ step ∈ tentativeSteps, step.source = .function true := by simp [tentativeSteps]
  have begun : World.Orderly
      (Turn.Regular Value.IsMaybe [⟨0, 0⟩, ⟨0, 1⟩] tentativeSteps)
      (tentativeStart.withLog []) := by
    simp [World.Orderly, World.log, World.withLog]
  have regular := ((ordinary_chainSteps [⟨0, 0⟩, ⟨0, 1⟩]).orderly
    (regular_countingCall justCount (fun _ => .inl ⟨_, _, rfl⟩) sources _)).outcome begun
  have ended : ((chainSteps (.standard (observing (countingCall justCount)))
      [⟨0, 0⟩, ⟨0, 1⟩]).outcome (tentativeStart.withLog [])).1 = .ok (.nothing none) := rfl
  obtain ⟨value, after, chained, exit⟩ :=
    exit_of_chainSteps leads rfl rfl callable regular (by simp [ended])
  have turns : [true, false, false] = after.log.map Turn.body :=
    congrArg (fun ran => ran.2.log.map Turn.body) chained
  have kept : .int 9 = after.content (.slot "z") :=
    congrArg (fun ran => ran.2.content (.slot "z")) chained
  have nothing := ended
  rw [chained, Except.ok.injEq] at nothing
  subst nothing
  cases exit with
  | stopped stops => exact ⟨after, chained, stops, turns.symm, kept.symm⟩

end Bindery
