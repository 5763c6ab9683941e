import Bindery.Proofs.Blame
import Bindery.Proofs.Calls
import Bindery.Proofs.Registration

set_option autoImplicit false

namespace Bindery

open Bindery.Action

variable {F σ : Type}

section Declarations

variable (draws defines : F → Target → Prop)

/-- Whether a call registers functions for the targets that they are meant for. -/
def Call.IsMeant : Call F → Prop
  | .draw target source => ∀ body, source = .function body → draws body target
  | .define target thunk => ∀ body, thunk = .function body → defines body target
  | _ => True

/-- Whether a step holds functions for the targets that they are meant for. -/
structure Step.IsMeant (step : Step F) : Prop where
  draws : ∀ body, step.source = .function body → draws body step.ownTarget
  defines : ∀ target body, .define target (.function body) ∈ step.qualifiers → defines body target

/-- Contexts as they can be after any calls that register functions for what they are meant for. -/
inductive Registered : List (List (Step F)) → Prop
  | none : Registered []
  | create {contexts : List (List (Step F))} (earlier : Registered contexts) :
      Registered (contexts ++ [[]])
  | call {contexts : List (List (Step F))} (context : Nat) (call : Call F)
      (earlier : Registered contexts) (meant : call.IsMeant draws defines) :
      Registered (contexts.modify context call.amend)

/-- States of a program: steps that are registered for what their functions are meant for, and
functions in a state that they can be in. -/
def Orderly (valid : σ → Prop) (world : World F σ) : Prop :=
  Registered draws defines world.contexts ∧ valid world.client

variable {draws defines}

theorem Step.IsMeant.qualified {step : Step F} (meant : step.IsMeant draws defines)
    (qualifier : Qualifier F) (added : qualifier.call.IsMeant draws defines) :
    (step.qualified qualifier).IsMeant draws defines where
  draws := meant.draws
  defines target body member := by
    rcases List.mem_append.mp member with earlier | new
    · exact meant.defines target body earlier
    · cases List.mem_singleton.mp new
      exact added body rfl

theorem Call.IsMeant.amend {call : Call F} (meant : call.IsMeant draws defines)
    {steps : List (Step F)} (all : ∀ step ∈ steps, step.IsMeant draws defines) :
    ∀ step ∈ call.amend steps, step.IsMeant draws defines := by
  cases call with
  | draw target source =>
      intro step member
      rcases List.mem_append.mp member with earlier | new
      · exact all step earlier
      · cases List.mem_singleton.mp new
        exact ⟨meant, by simp⟩
  | restrict predicate =>
      exact forall_mem_modify all fun _ earlier => earlier.qualified (.filter predicate) trivial
  | define target thunk =>
      exact forall_mem_modify all fun _ earlier => earlier.qualified (.define target thunk) meant
  | conclude block =>
      exact forall_mem_modify all fun _ earlier => ⟨earlier.draws, earlier.defines⟩

theorem Registered.isMeant {contexts : List (List (Step F))}
    (registered : Registered draws defines contexts) :
    ∀ steps ∈ contexts, ∀ step ∈ steps, step.IsMeant draws defines := by
  induction registered with
  | none => simp
  | create _ ih =>
      intro steps member
      rcases List.mem_append.mp member with earlier | new
      · exact ih steps earlier
      · cases List.mem_singleton.mp new
        simp
  | call context call _ meant ih => exact forall_mem_modify ih fun _ all => meant.amend all

theorem Registered.isMeant_of_step? {world : World F σ}
    (registered : Registered draws defines world.contexts) {ref : StepRef} {step : Step F}
    (found : world.step? ref = some step) : step.IsMeant draws defines := by
  obtain ⟨steps, known, member⟩ := World.exists_mem_of_step? found
  exact registered.isMeant steps known step member

theorem Call.perform_preserves {valid : σ → Prop} {meaning : Meaning F σ} (context : Nat)
    {call : Call F} (meant : call.IsMeant draws defines)
    (functions : ∀ (callback : Callback F) argument,
      Preserves (Orderly draws defines valid) (callback.call meaning argument)) :
    Preserves (Orderly draws defines valid) (call.perform meaning context) :=
  Call.preserves_perform (fun _ _ _ _ _ _ orderly => orderly) context
    (fun _ orderly => ⟨.call context call orderly.1 meant, orderly.2⟩) functions

end Declarations

abbrev AnswerLog (F : Type) := List (F × Except Error (Value F))

/-- Functions that log how their calls end. -/
def loggingAnswers (call : F → Option (Value F) → Action F σ (Value F)) :
    F → Option (Value F) → Action F (σ × AnswerLog F) (Value F) :=
  logging (fun body _ result => (body, result)) call

/-- Some function raised the error by itself. -/
def RaisedByFunction (error : Error) (world : World F (σ × AnswerLog F)) : Prop :=
  ∃ body, (body, .error error) ∈ world.log

section Answers

variable (draws defines : F → Target → Prop) (valid : σ → Prop)
  (call : F → Option (Value F) → Action F σ (Value F))

/-- All answers that are logged fit the targets that the functions are meant for. What it takes for
the monad of a source to fit is left open. -/
def AnswersFit (fits : Target → Value F → Prop) (world : World F (σ × AnswerLog F)) : Prop :=
  ∀ body value, (body, .ok value) ∈ world.log →
    (∀ target, draws body target → fits target value) ∧
      ∀ target, defines body target → target.Fits value

/-- The values that a monad holds fit a target: those of a list or an optional value, and those that
a deferred list gives whenever it is forced, as long as all answers fit that functions give. Forcing
it fails with no error of arity but those that functions raise. The depth bounds how deep deferred
lists are forced inside of one another. -/
def HoldsFitting (depth : Nat) (target : Target) : Value F → Prop
  | .listMonad _ _ items => ∀ item ∈ items, target.Fits item
  | .just _ content => target.Fits content
  | .nothing _ => True
  | .deferred number items stages =>
      ∀ fuel (_within : fuel < depth) (world : World F (σ × AnswerLog F)),
        Orderly draws defines valid world.withoutLog →
          (Value.force (.standard (loggingAnswers call)) fuel
            (.deferred number items stages)).Ends world
            (fun forced after => AnswersFit draws defines (HoldsFitting fuel) after →
              ∀ item ∈ forced, target.Fits item)
            fun error after => AnswersFit draws defines (HoldsFitting fuel) after →
              error.kind = .tupleArity → RaisedByFunction error after
  | _ => False
termination_by depth

/-- All answers that are logged fit, however deep deferred lists are forced. -/
def AllFit (world : World F (σ × AnswerLog F)) : Prop :=
  ∀ depth, AnswersFit draws defines (HoldsFitting draws defines valid call depth) world

/-- What is watched: logged answers that fit, and registered steps. -/
def answerWatch (depth : Nat) : Watch F (σ × AnswerLog F) where
  depth := depth
  fine := AnswersFit draws defines (HoldsFitting draws defines valid call depth)
  inOrder world := Orderly draws defines valid world.withoutLog
  accounted := RaisedByFunction

variable {draws defines valid call} {depth : Nat}

theorem AnswersFit.imp {stronger weaker : Target → Value F → Prop}
    {world : World F (σ × AnswerLog F)} (fit : AnswersFit draws defines stronger world)
    (weaken : ∀ target value, stronger target value → weaker target value) :
    AnswersFit draws defines weaker world := by
  intro body value member
  obtain ⟨drawn, defined⟩ := fit body value member
  exact ⟨fun target meant => weaken target value (drawn target meant), defined⟩

theorem HoldsFitting.of_le {target : Target} {value : Value F} {lower : Nat}
    (le : lower ≤ depth) (fitting : HoldsFitting draws defines valid call depth target value) :
    HoldsFitting draws defines valid call lower target value := by
  cases value with
  | deferred number items stages =>
      rw [HoldsFitting] at fitting ⊢
      intro fuel within
      exact fitting fuel (Nat.lt_of_lt_of_le within le)
  | listMonad number traced items =>
      rw [HoldsFitting] at fitting ⊢
      exact fitting
  | just number content =>
      rw [HoldsFitting] at fitting ⊢
      exact fitting
  | nothing number =>
      rw [HoldsFitting]
      trivial
  | _ => simp only [HoldsFitting] at fitting

theorem holds_of_holdsFitting {target : Target} {value : Value F}
    (fitting : HoldsFitting draws defines valid call depth target value) :
    (answerWatch draws defines valid call depth).Holds (loggingAnswers call) target.Fits value := by
  cases value with
  | deferred number items stages =>
      rw [HoldsFitting] at fitting
      intro fuel within world inOrder
      have shallow : ∀ after, (answerWatch draws defines valid call depth).fine after →
          AnswersFit draws defines (HoldsFitting draws defines valid call fuel) after :=
        fun after fine => fine.imp fun _ _ deep => deep.of_le (Nat.le_of_lt within)
      exact (fitting fuel within world inOrder).mono
        (fun _ after found fine => found (shallow after fine))
        fun _ after accounted fine => accounted (shallow after fine)
  | listMonad number traced items =>
      rw [HoldsFitting] at fitting
      exact fitting
  | just number content =>
      rw [HoldsFitting] at fitting
      exact fitting
  | nothing number => trivial
  | _ => simp only [HoldsFitting] at fitting

theorem holdsFitting_deferred {target : Target} {items : List (Value F)} (number : Option Nat)
    (all : ∀ item ∈ items, target.Fits item) :
    HoldsFitting draws defines valid call depth target (.deferred number items []) := by
  rw [HoldsFitting]
  intro fuel _ world _
  cases fuel with
  | zero => simp [Value.force, Error.kind]
  | succ fuel => exact fun _ => all

theorem fair_answerWatch
    (keeps : ∀ body argument, Preserves (Orderly draws defines valid) (call body argument)) :
    (answerWatch draws defines valid call depth).Fair (loggingAnswers call) where
  fineIgnores _ _ _ _ _ _ unfine := unfine
  orderIgnores _ _ _ _ _ _ orderly := orderly
  remembers body argument := by
    refine Preserves.of_outcome fun world unfine fits => unfine fun other value member => ?_
    rw [loggingAnswers, outcome_logging] at fits
    exact fits other value (List.mem_append_left _ member)
  keeps body argument := by
    refine Preserves.of_outcome fun world orderly => ?_
    rw [loggingAnswers, outcome_logging]
    exact (keeps body argument).outcome orderly
  accounts body argument world := by
    unfold Ends
    rw [loggingAnswers, outcome_logging]
    rcases (call body argument).outcome world.withoutLog with ⟨error | value, after⟩
    · exact ⟨body, List.mem_append_right _ List.mem_cons_self⟩
    · trivial

theorem ends_loggingAnswers (body : F) (argument : Option (Value F))
    (world : World F (σ × AnswerLog F)) :
    (loggingAnswers call body argument).Ends world
      (fun value after => (body, .ok value) ∈ after.log)
      fun error after => (body, .error error) ∈ after.log := by
  unfold Ends
  rw [loggingAnswers, outcome_logging]
  rcases (call body argument).outcome world.withoutLog with ⟨error | value, after⟩
  · exact List.mem_append_right _ List.mem_cons_self
  · exact List.mem_append_right _ List.mem_cons_self

theorem clears_of_answer {callback : Callback F} {such : Value F → Prop}
    (fits : ∀ body, callback = .function body → ∀ value (after : World F (σ × AnswerLog F)),
      (body, .ok value) ∈ after.log →
        (answerWatch draws defines valid call depth).fine after → such value)
    (world : World F (σ × AnswerLog F)) :
    (answerWatch draws defines valid call depth).Clears
      (callback.call (.standard (loggingAnswers call)) none) world such := by
  cases callback with
  | object type => exact Watch.clears_throw (by simp [Error.kind])
  | function body =>
      exact (ends_loggingAnswers body none world).mono
        (fun value after logged fine => fits body rfl value after logged fine)
        fun _ _ logged _ _ => ⟨body, logged⟩

theorem declared_of_isMeant {step : Step F} (meant : step.IsMeant draws defines) :
    (answerWatch draws defines valid call depth).Declared (loggingAnswers call) step where
  draws world _ := clears_of_answer (fun body same value _ logged fine =>
    holds_of_holdsFitting ((fine body value logged).1 _ (meant.draws body same))) world
  defines added _ member world _ := clears_of_answer (fun body same value _ logged fine =>
    (fine body value logged).2 _ (meant.defines added body (same ▸ member))) world

/-- While steps are chained that were built by calls, and whenever the result is forced, an error of
arity is one that a function raised by itself, if all that sources and definitions gave fits the
targets that they were registered for. The functions may make calls on the same contexts as they
go. A function that is registered more than once is to give what fits each of its targets. -/
theorem arity_errors_raised_by_functions
    (keeps : ∀ body argument, Preserves (Orderly draws defines valid) (call body argument))
    {start : World F σ} (orderly : Orderly draws defines valid start) (refs : List StepRef) :
    (chainSteps (.standard (loggingAnswers call)) refs).Ends (start.withLog [])
      (fun value after => AllFit draws defines valid call after →
        ∀ fuel (later : World F (σ × AnswerLog F)),
          Orderly draws defines valid later.withoutLog →
            (value.force (.standard (loggingAnswers call)) fuel).Ends later (fun _ _ => True)
              fun error last => AllFit draws defines valid call last →
                error.kind = .tupleArity → RaisedByFunction error last)
      fun error after => AllFit draws defines valid call after → error.kind = .tupleArity →
        RaisedByFunction error after := by
  have clears : ∀ depth, (answerWatch draws defines valid call depth).Clears
      (chainSteps (.standard (loggingAnswers call)) refs) (start.withLog [])
      ((answerWatch draws defines valid call depth).Safe (loggingAnswers call)) := fun depth =>
    Watch.clears_chainSteps (fair_answerWatch keeps)
      (fun world kept ref step found => declared_of_isMeant (kept.1.isMeant_of_step? found))
      refs orderly
  refine (Ends.all clears).mono (fun value _ safe fits fuel later kept => ?_)
    fun _ _ accounted fits => accounted 0 (fits 0)
  have forced := safe (fuel + 1) (fits (fuel + 1)) fuel (Nat.lt_succ_self fuel) later kept
  exact forced.mono (fun _ _ _ => trivial) fun _ _ accounted fits => accounted (fits (fuel + 1))

end Answers

def slotPair : Target :=
  .tuple [.slot "x" none, .slot "y" none]

def DrawsPair (isSource : Bool) (target : Target) : Prop :=
  isSource = true ∧ target = slotPair

def DefinesOne (isSource : Bool) (_ : Target) : Prop :=
  isSource = false

/-- A source of a deferred pair, which also defines one more slot in the last step whenever it is
called, and the function that gives the value of this slot. -/
def meddling : Bool → Option (Value Bool) → Action Bool Unit (Value Bool)
  | true, _ => do
      Call.perform (.standard fun _ _ => return .null) 0
        (.define (.slot "z" none) (.function false))
      return .deferred none [.bundle [.int 1, .int 2]] []
  | false, _ => return .bool true

/-- Two steps with the meddling source. -/
def meddledPairs : World Bool Unit :=
  let step : Step Bool := { ownTarget := slotPair, source := .function true }
  { contexts := [[step, step]], client := () }

theorem orderly_meddledPairs : Orderly DrawsPair DefinesOne (fun _ => True) meddledPairs := by
  have meant : (Call.draw slotPair (.function true)).IsMeant DrawsPair DefinesOne := by
    simp [Call.IsMeant, DrawsPair]
  exact ⟨.call 0 _ (.call 0 _ (.create .none) meant) meant, trivial⟩

theorem meddling_preserves (isSource : Bool) (argument : Option (Value Bool)) :
    Preserves (Orderly DrawsPair DefinesOne fun _ => True) (meddling isSource argument) := by
  cases isSource with
  | false => exact preserves_pure _
  | true =>
      have meant : (Call.define (.slot "z" none) (.function false)).IsMeant DrawsPair
          DefinesOne := by
        simp [Call.IsMeant, DefinesOne]
      refine (Call.perform_preserves 0 meant fun callback argument => ?_).bind fun _ =>
        preserves_pure _
      cases callback with
      | function body => exact preserves_pure _
      | object type => exact preserves_throw _

theorem allFit_of_log {world : World Bool (Unit × AnswerLog Bool)}
    (logged : world.log = [(true, .ok (.deferred none [.bundle [.int 1, .int 2]] []))]) :
    AllFit DrawsPair DefinesOne (fun _ => True) meddling world := by
  intro depth isSource value member
  rw [logged, List.mem_singleton] at member
  cases member
  refine ⟨?_, by simp [DefinesOne]⟩
  rintro target ⟨-, rfl⟩
  exact holdsFitting_deferred none (by simp [slotPair, Target.Takes])

/-- The source defines a slot in the second step before this is chained. Still, the deferred result
may be forced without an error of arity, in any later state. -/
theorem arity_errors_meddledPairs :
    ∃ value after,
      (chainSteps (.standard (loggingAnswers meddling)) [⟨0, 0⟩, ⟨0, 1⟩]).outcome
          (meddledPairs.withLog []) = (.ok value, after) ∧
        ∀ fuel (later : World Bool (Unit × AnswerLog Bool)),
          Orderly DrawsPair DefinesOne (fun _ => True) later.withoutLog →
            (value.force (.standard (loggingAnswers meddling)) fuel).Ends later (fun _ _ => True)
              fun error last => AllFit DrawsPair DefinesOne (fun _ => True) meddling last →
                error.kind = .tupleArity → RaisedByFunction error last := by
  have chained := arity_errors_raised_by_functions meddling_preserves orderly_meddledPairs
    [⟨0, 0⟩, ⟨0, 1⟩]
  exact ⟨_, _, rfl, chained.of_ok rfl (allFit_of_log rfl)⟩

end Bindery
