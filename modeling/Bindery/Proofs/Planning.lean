import Bindery.Plan.Document
import Bindery.Proofs.Client
import Bindery.Proofs.Settling
import Bindery.Proofs.Turns
import Bindery.Script.Statement

set_option autoImplicit false

namespace Bindery

open Bindery.Action

variable {F σ : Type}

/-- A block that only makes calls. It may look at the state, it is told how each call ended, and it
may go on after an error. A call that names no context is made on the innermost open one. -/
inductive Requests (F σ : Type) where
  | finish (result : Except Error PUnit)
  | look (next : World F σ → Requests F σ)
  | make (named : Option Nat) (request : Call F) (next : Except Error PUnit → Requests F σ)

/-- A call that was made on a context, and the state that it was made in. -/
structure Made (F σ : Type) where
  context : Nat
  request : Call F
  before : World F σ

namespace Made

def ended (meaning : Meaning F σ) (made : Made F σ) : Except Error PUnit :=
  ((made.request.perform meaning made.context).outcome made.before).1

def after (meaning : Meaning F σ) (made : Made F σ) : World F σ :=
  ((made.request.perform meaning made.context).outcome made.before).2

/-- The target and the thunk of a definition that is made at once: its target is accepted, and its
context has no step. -/
def immediate? (made : Made F σ) : Option (Target × Callback F) :=
  match made.request with
  | .define target thunk =>
      if target.accepts && (made.before.steps made.context).isEmpty then some (target, thunk)
      else none
  | _ => none

/-- The turn that the thunk of such a definition has: it is called from the state in which the
definition is made, without an argument. -/
def turn? (call : F → Option (Value F) → Action F σ (Value F))
    (made : Made F (σ × List (Turn F σ))) : Option (Turn F σ) :=
  match made.immediate? with
  | some (_, .function body) => some (Turn.of call body none made.before.withoutLog)
  | _ => none

end Made

namespace Requests

def run (meaning : Meaning F σ) : Requests F σ → Action F σ PUnit
  | .finish result => MonadExcept.ofExcept result
  | .look next => do
      let world ← get
      run meaning (next world)
  | .make named request next => do
      let ended ← Action.attempt do
        let context ← Client.locate named request.verb
        request.perform meaning context
      run meaning (next ended)

/-- The calls that a run from a state makes, in order. A request that finds no context to be made on
makes none. -/
def calls (meaning : Meaning F σ) : Requests F σ → World F σ → List (Made F σ)
  | .finish _, _ => []
  | .look next, world => calls meaning (next world) world
  | .make named request next, world =>
      match ((Client.locate named request.verb).outcome world).1 with
      | .error error => calls meaning (next (.error error)) world
      | .ok context =>
          let made : Made F σ := { context, request, before := world }
          made :: calls meaning (next (made.ended meaning)) (made.after meaning)

end Requests

/-- Each call is made in the state that the one before it left. -/
def Reaches (meaning : Meaning F σ) : World F σ → List (Made F σ) → World F σ → Prop
  | start, [], last => last = start
  | start, made :: later, last =>
      made.before = start ∧ Reaches meaning (made.after meaning) later last

theorem world_locate (named : Option Nat) (verb : Verb) (world : World F σ) :
    ((Client.locate named verb).outcome world).2 = world := by
  have preserves : Preserves (· = world) (Client.locate named verb) := by
    rintro _ rfl
    exact (Client.ends_locate named verb _).mono (fun _ _ found => found.1) fun _ _ same => same
  exact preserves.outcome rfl

theorem outcome_attempt {α : Type} (action : Action F σ α) (world : World F σ) :
    (Action.attempt action).outcome world =
      (.ok (action.outcome world).1, (action.outcome world).2) := rfl

theorem Requests.reaches_run (meaning : Meaning F σ) (requests : Requests F σ)
    (world : World F σ) :
    Reaches meaning world (requests.calls meaning world)
      ((requests.run meaning).outcome world).2 := by
  induction requests generalizing world with
  | finish result => cases result <;> rfl
  | look next ih =>
      rw [run, outcome_bind, outcome_get]
      exact ih world world
  | make named request next ih =>
      have unchanged := world_locate named request.verb world
      rw [run, outcome_bind, outcome_attempt, outcome_bind, calls]
      rcases located : (Client.locate named request.verb).outcome world with ⟨error | context, now⟩
      · rw [located] at unchanged
        subst unchanged
        exact ih (.error error) now
      · rw [located] at unchanged
        subst unchanged
        exact ⟨rfl, ih _ _⟩

/-- A definition is made at once when it is not refused and comes before the first step. -/
theorem Made.immediate?_eq (made : Made F σ) :
    made.immediate? =
      match made.request.refusal? (made.before.steps made.context) with
      | some _ => none
      | none => made.request.early? (made.before.steps made.context) := by
  obtain ⟨context, request, before⟩ := made
  cases request with
  | define target thunk =>
      simp only [immediate?, Call.refusal?]
      cases target.accepts with
      | false => rfl
      | true => cases before.steps context <;> rfl
  | draw target source =>
      simp only [immediate?, Call.early?]
      cases Call.refusal? (.draw target source) (before.steps context) <;> rfl
  | restrict predicate =>
      simp only [immediate?, Call.early?]
      cases Call.refusal? (.restrict predicate) (before.steps context) <;> rfl
  | conclude block =>
      simp only [immediate?, Call.early?]
      cases Call.refusal? (.conclude block) (before.steps context) <;> rfl

/-- What a call comes to. It is refused and changes nothing; or it registers something with its own
context; or it is a definition that is made at once. Then its thunk is called, and the answer is
deposited in the state that the thunk left. -/
inductive Made.Accounted (call : F → Option (Value F) → Action F σ (Value F))
    (made : Made F (σ × List (Turn F σ))) : Prop where
  | refused (error : Error) (later : made.immediate? = none)
      (ended : made.ended (.standard (observing call)) = .error error)
      (after : made.after (.standard (observing call)) = made.before)
  | registered (later : made.immediate? = none)
      (ended : made.ended (.standard (observing call)) = .ok ())
      (after : made.after (.standard (observing call)) =
        made.request.register made.context made.before)
  | captured (target : Target) (body : F) (turn : Turn F σ) (value : Value F)
      (immediate : made.immediate? = some (target, .function body))
      (called : made.turn? call = some turn) (answered : turn.answer = .ok value)
      (ended : made.ended (.standard (observing call)) =
        ((deposit target value).outcome (turn.after.withLog (made.before.log ++ [turn]))).1)
      (after : made.after (.standard (observing call)) =
        (turn.after.withLog (made.before.log ++ [turn])).deposited target value)
  | failed (target : Target) (body : F) (turn : Turn F σ) (error : Error)
      (immediate : made.immediate? = some (target, .function body))
      (called : made.turn? call = some turn) (answered : turn.answer = .error error)
      (ended : made.ended (.standard (observing call)) = .error error)
      (after : made.after (.standard (observing call)) =
        turn.after.withLog (made.before.log ++ [turn]))
  | uncalled (target : Target) (type : TypeName)
      (immediate : made.immediate? = some (target, .object type))
      (ended : made.ended (.standard (observing call)) = .error (.notCallable type))
      (after : made.after (.standard (observing call)) = made.before)

namespace Made

variable (call : F → Option (Value F) → Action F σ (Value F))
  (made : Made F (σ × List (Turn F σ)))

theorem accounted : made.Accounted call := by
  have early := made.immediate?_eq
  have performed : (made.request.perform (.standard (observing call)) made.context).outcome
      made.before = _ := Call.outcome_perform_eq (.standard (observing call)) made.request
  cases refused : made.request.refusal? (made.before.steps made.context) with
  | some error =>
      rw [refused] at early performed
      exact .refused error early (congrArg Prod.fst performed) (congrArg Prod.snd performed)
  | none =>
      rw [refused] at early performed
      cases made_early : made.request.early? (made.before.steps made.context) with
      | none =>
          rw [made_early] at early performed
          exact .registered early (congrArg Prod.fst performed) (congrArg Prod.snd performed)
      | some pair =>
          obtain ⟨target, thunk⟩ := pair
          rw [made_early] at early performed
          cases thunk with
          | object type =>
              exact .uncalled target type early (congrArg Prod.fst performed)
                (congrArg Prod.snd performed)
          | function body =>
              let turn := Turn.of call body none made.before.withoutLog
              have called : made.turn? call = some turn := by rw [turn?, early]
              have ran : ((Callback.function body).call (.standard (observing call)) none).outcome
                  made.before =
                (turn.answer, turn.after.withLog (made.before.log ++ [turn])) := rfl
              simp only [outcome_bind, ran] at performed
              cases answered : turn.answer with
              | error error =>
                  rw [answered] at performed
                  exact .failed target body turn error early called answered
                    (congrArg Prod.fst performed) (congrArg Prod.snd performed)
              | ok value =>
                  rw [answered] at performed
                  exact .captured target body turn value early called answered
                    (congrArg Prod.fst performed) (congrArg Prod.snd performed)

theorem log_after :
    (made.after (.standard (observing call))).log =
      made.before.log ++ (made.turn? call).toList := by
  have silent : made.immediate? = none → made.turn? call = none := by
    intro later
    rw [turn?, later]
  cases made.accounted call with
  | refused error later ended after =>
      rw [after, silent later, Option.toList_none, List.append_nil]
  | registered later ended after =>
      rw [after, silent later, Option.toList_none, List.append_nil]
      rfl
  | captured target body turn value immediate called answered ended after =>
      have kept : Preserves (fun world : World F (σ × List (Turn F σ)) =>
          world.log = made.before.log ++ [turn]) (deposit target value) :=
        deposit_preserves (fun _ _ _ _ _ _ same => same) target value
      rw [after, called]
      exact kept.outcome rfl
  | failed target body turn error immediate called answered ended after =>
      rw [after, called]
      rfl
  | uncalled target type immediate ended after =>
      have none : made.turn? call = none := by rw [turn?, immediate]
      rw [after, none, Option.toList_none, List.append_nil]

end Made

theorem Reaches.log {call : F → Option (Value F) → Action F σ (Value F)}
    {calls : List (Made F (σ × List (Turn F σ)))} {start last : World F (σ × List (Turn F σ))}
    (reaches : Reaches (.standard (observing call)) start calls last) :
    last.log = start.log ++ calls.filterMap (Made.turn? call) := by
  induction calls generalizing start with
  | nil => rw [reaches, List.filterMap_nil, List.append_nil]
  | cons made later ih =>
      obtain ⟨here, others⟩ := reaches
      have logged := made.log_after call
      rw [ih others, logged, here]
      cases turn : made.turn? call <;> simp [turn]

theorem Plan.world_ofDescription (description : Description F σ) (world : World F σ) :
    ((ofDescription description).outcome world).2 =
      { ((description world.contexts.length).outcome world.opening).2 with
        opened := world.opened } := by
  have described : (Context.withNew fun context => do
        description context
        return context).outcome world =
      (((description world.contexts.length).outcome world.opening).1.map
          fun _ => world.contexts.length,
        { ((description world.contexts.length).outcome world.opening).2 with
          opened := world.opened }) := by
    have created : (Context.create : Action F σ Nat).outcome world =
        (.ok world.contexts.length, { world with contexts := world.contexts ++ [[]] }) := rfl
    rw [Context.withNew, outcome_keepOpened, outcome_bind, created]
    simp only [outcome_bind, outcome_modify, outcome_pure]
    rw [show ({ world with
      contexts := world.contexts ++ [[]]
      opened := world.contexts.length :: world.opened } : World F σ) = world.opening from rfl]
    rcases (description world.contexts.length).outcome world.opening with ⟨_ | _, after⟩ <;> rfl
  rw [ofDescription, outcome_bind, Description.steps, outcome_bind, described]
  cases ((description world.contexts.length).outcome world.opening).1 <;> rfl

/-- All that is told of a plan: the summaries of its steps, the report, and the documents. -/
structure Account where
  summaries : List StepSummary
  report : Report
  document : Json
  jsonText : String
  yamlText : String

namespace Plan

def account (plan : Plan) (world : World F σ) : Account where
  summaries := plan.summariesIn world
  report := Report.ofSummaries (plan.summariesIn world)
  document := plan.document world
  jsonText := plan.jsonText world
  yamlText := plan.yamlText world

theorem account_congr {plan : Plan} {start now : World F σ}
    (same : SameSteps plan.steps start now) :
    plan.account now = plan.account start := by
  have steps : plan.stepsIn now = plan.stepsIn start := List.filterMap_congr same
  simp only [account, jsonText, yamlText, document, fields, summariesIn, steps]

/-- The state that chaining a plan leaves, however it ends. -/
def chained (meaning : Meaning F σ) (plan : Plan) (world : World F σ) : World F σ :=
  ((plan.chain meaning).outcome world).2

end Plan

/-- A turn leaves these steps as they were. -/
def Turn.Unamending (refs : List StepRef) (turn : Turn F σ) : Prop :=
  ∀ ref ∈ refs, turn.after.step? ref = turn.before.step? ref

theorem Plan.chain_preserves_sameSteps (call : F → Option (Value F) → Action F σ (Value F))
    (plan : Plan) (start : World F (σ × List (Turn F σ))) :
    Preserves (fun world => world.Orderly (Turn.Unamending plan.steps) →
      SameSteps plan.steps start world) (plan.chain (.standard (observing call))) := by
  refine ordinary_chainSteps plan.steps _ (fun _ _ _ _ _ _ kept => kept) ?_
  intro body argument
  refine Preserves.of_outcome ?_
  intro world kept orderly ref member
  let turn := Turn.of call body argument world.withoutLog
  have logged : ((observing call body argument).outcome world).2 =
      turn.after.withLog (world.log ++ [turn]) := rfl
  rw [logged] at orderly ⊢
  have earlier : world.Orderly (Turn.Unamending plan.steps) :=
    fun other known => orderly other (List.mem_append_left _ known)
  have last : turn.Unamending plan.steps := orderly turn (List.mem_append_right _ (by simp))
  exact (last ref member).trans (kept earlier ref member)

theorem Plan.sameSteps_chained (call : F → Option (Value F) → Action F σ (Value F)) (plan : Plan)
    (world : World F σ) (times : Nat) :
    let last := (plan.chained (.standard (observing call)))^[times] (world.withLog [])
    last.Orderly (Turn.Unamending plan.steps) → SameSteps plan.steps (world.withLog []) last := by
  induction times with
  | zero => exact fun _ _ _ => rfl
  | succ times ih =>
      rw [Function.iterate_succ_apply']
      exact (plan.chain_preserves_sameSteps call (world.withLog [])).outcome ih

/-- Where functions always behave, so do all turns, however often a plan is chained. -/
theorem Plan.orderly_chained {call : F → Option (Value F) → Action F σ (Value F)}
    {behaves : Turn F σ → Prop}
    (each : ∀ body argument before, behaves (Turn.of call body argument before)) (plan : Plan)
    (world : World F σ) (times : Nat) :
    World.Orderly behaves
      ((plan.chained (.standard (observing call)))^[times] (world.withLog [])) := by
  induction times with
  | zero =>
      intro turn member
      cases member
  | succ times ih =>
      rw [Function.iterate_succ_apply']
      exact ((ordinary_chainSteps plan.steps).orderly each).outcome ih

namespace Script

/-- The statements that tell something of a plan. -/
def Stmt.TellsOfPlan : Stmt → Prop
  | .summaries _ | .report _ _ | .document _ | .jsonText _ | .yamlText _ => True
  | _ => False

/-- Such a statement changes nothing, and what it tells is the same whatever functions and
expressions mean. -/
theorem Runner.outcome_execStep_of_tells {statement : Stmt} (tells : statement.TellsOfPlan)
    (world : World Closure Scope) :
    ∃ result, ∀ (runner : Runner) (frame : Frame),
      (runner.execStep frame statement).outcome world = (result, world) := by
  have named : ∀ name, Preserves (· = world) (Scope.planNamed name) := by
    intro name
    have looked : Preserves (· = world) Scope.current :=
      preserves_get.bind fun _ => preserves_pure _
    refine looked.bind fun scope => ?_
    cases scope.plans.get? name with
    | none => exact preserves_throw _
    | some plan => exact preserves_pure _
  have unchanged : ((Runner.execStep (withFuel 0) {} statement).outcome world).2 = world := by
    cases statement with
    | summaries name | report name _ | document name | jsonText name | yamlText name =>
        exact Preserves.outcome ((named name).bind fun _ =>
          preserves_get.bind fun _ => preserves_pure _) rfl
    | _ => exact tells.elim
  refine ⟨((Runner.execStep (withFuel 0) {} statement).outcome world).1, ?_⟩
  intro runner frame
  have same : runner.execStep frame statement = Runner.execStep (withFuel 0) {} statement := by
    cases statement with
    | summaries name | report name _ | document name | jsonText name | yamlText name => rfl
    | _ => exact tells.elim
  rw [same]
  exact Prod.ext rfl unchanged

end Script

namespace Plan

/-- What planning, telling and chaining leave alone.

A block that is planned goes through its calls and through nothing else. The only functions that are
called are the thunks of definitions with an accepted target that are made while their context has
no step: each of them once, in the order of the calls, and what it gives is captured at once. All
other calls leave everything as it was but the steps of their own context.

The statements that tell something of a plan change nothing, and they come out the same whatever
functions do, since all of it is read off the steps.

Chaining a plan, however often and however it ends, leaves the steps as they were and all that is
told of them, if no function that it calls changes them. -/
theorem planning_telling_chaining (call : F → Option (Value F) → Action F σ (Value F)) :
    (∀ (block : Nat → Requests F (σ × List (Turn F σ))) (world : World F (σ × List (Turn F σ))),
      let meaning : Meaning F (σ × List (Turn F σ)) := .standard (observing call)
      let calls := (block world.contexts.length).calls meaning world.opening
      let after := ((ofDescription fun context => (block context).run meaning).outcome world).2
      (∃ last, Reaches meaning world.opening calls last ∧
        after = { last with opened := world.opened }) ∧
      after.log = world.log ++ calls.filterMap (Made.turn? call) ∧
      ∀ made ∈ calls, made.Accounted call) ∧
    (∀ statement : Script.Stmt, statement.TellsOfPlan → ∀ world, ∃ result,
      ∀ (runner : Script.Runner) (frame : Script.Frame),
        (runner.execStep frame statement).outcome world = (result, world)) ∧
    (∀ (plan : Plan) (start now : World F σ), SameSteps plan.steps start now →
      plan.account now = plan.account start) ∧
    ∀ (plan : Plan) (world : World F σ) (times : Nat),
      let last := (plan.chained (.standard (observing call)))^[times] (world.withLog [])
      last.Orderly (Turn.Unamending plan.steps) →
        (∀ ref ∈ plan.steps, last.step? ref = world.step? ref) ∧
          plan.account last = plan.account world := by
  refine ⟨?_, fun statement tells => Script.Runner.outcome_execStep_of_tells tells,
    fun plan start now => account_congr, ?_⟩
  · intro block world meaning calls after
    have reached := (block world.contexts.length).reaches_run meaning world.opening
    have left : after = { (((block world.contexts.length).run meaning).outcome
        world.opening).2 with opened := world.opened } :=
      world_ofDescription (fun context => (block context).run meaning) world
    refine ⟨⟨_, reached, left⟩, ?_, fun made _ => made.accounted call⟩
    rw [left]
    exact reached.log
  · intro plan world times last orderly
    have same := plan.sameSteps_chained call world times orderly
    exact ⟨same, account_congr same⟩

def earlyAndLate (_ : Nat) : Requests Bool (Nat × List (Turn Bool Nat)) :=
  .make none (.define (.slot "x" none) (.function false)) fun _ =>
    .make none (.draw (.slot "y" none) (.function true)) fun _ =>
      .make none (.define (.slot "z" none) (.function false)) fun _ => .finish (.ok ())

def oneNumber (calls : Nat) : Value Bool :=
  .listMonad none false [.int calls]

def pairingStep : Step Bool :=
  { ownTarget := .slot "y" none
    source := .function true
    qualifiers := [.define (.slot "z" none) (.function false)] }

def pairingStart : World Bool Nat :=
  { contexts := [[pairingStep]], client := 1 }

def pairingPlan : Plan := ⟨[⟨0, 0⟩]⟩

/-- Only the thunk of the first definition is called while the block is planned. Its target then
holds what the thunk gave, and the other two are unbound. Chaining the plan of a step calls its
source and its thunk; after it has been chained twice, the same is told of it. -/
theorem planning_telling_chaining_earlyAndLate :
    (let planned := ((ofDescription fun context => (earlyAndLate context).run
        (.standard (observing (countingCall oneNumber)))).outcome { client := (7, []) }).2;
      planned.log.map (fun turn => (turn.body, turn.argument)) = [(false, none)] ∧
        planned.slot "x" = .int 1 ∧ planned.slot "y" = .unbound ∧ planned.slot "z" = .unbound) ∧
    ((pairingPlan.chained (.standard (observing (countingCall oneNumber)))
        (pairingStart.withLog [])).log.map fun turn => (turn.body, turn.argument)) =
      [(true, none), (false, none)] ∧
    pairingPlan.account ((pairingPlan.chained
        (.standard (observing (countingCall oneNumber))))^[2] (pairingStart.withLog [])) =
      pairingPlan.account pairingStart := by
  obtain ⟨planned, -, -, chained⟩ := planning_telling_chaining (countingCall oneNumber)
  obtain ⟨-, logged, -⟩ := planned earlyAndLate { client := (7, []) }
  have unamending : ∀ body argument (before : World Bool Nat),
      (Turn.of (countingCall oneNumber) body argument before).Unamending pairingPlan.steps :=
    fun _ _ _ _ _ => rfl
  have orderly := pairingPlan.orderly_chained unamending pairingStart 2
  refine ⟨⟨?_, rfl, rfl, rfl⟩, rfl, (chained pairingPlan pairingStart 2 orderly).2⟩
  rw [logged]
  rfl

end Plan

end Bindery
