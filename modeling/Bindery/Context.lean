import Bindery.Chain

set_option autoImplicit false

namespace Bindery

variable {F σ : Type}

namespace Context

/-- A new context without steps, which is not open. -/
def create : Action F σ Nat := do
  let context := (← get).contexts.length
  modify fun world => { world with contexts := world.contexts ++ [[]] }
  return context

/-- Run a body with a new context as the innermost open one. -/
def withNew {α : Type} (body : Nat → Action F σ α) : Action F σ α :=
  Action.keepOpened do
    let context ← create
    modify fun world => { world with opened := context :: world.opened }
    body context

def innermost (operation : String) : Action F σ Nat := do
  match (← get).opened with
  | context :: _ => return context
  | [] => throw (.outsideDescription operation)

def openDepth : Action F σ Nat := do
  return (← get).opened.length

def stepRefs (context : Nat) : Action F σ (List StepRef) := do
  return (List.range ((← get).steps context).length).map (⟨context, ·⟩)

def amendLast (context : Nat) (change : Step F → Step F) : Action F σ PUnit :=
  modify (·.modifySteps context fun steps => steps.modify (steps.length - 1) change)

def lastStep (verb : Verb) (context : Nat) : Action F σ (Step F) := do
  match ((← get).steps context).getLast? with
  | some step => return step
  | none => throw (.outOfOrder verb)

def requireTarget (verb : Verb) (target : Target) : Action F σ PUnit :=
  if target.accepts then return () else throw (.badTarget verb target.typeName)

/-- Register a step with a target and a source. Where no source is given, the target stands in for
it and the values are discarded. -/
def draw (context : Nat) (target : Target) (source : Callback F) : Action F σ PUnit := do
  let (target, source) :=
    if source.isNull then (Target.discard, Callback.object target.typeName)
    else (target, source)
  match source with
  | .object type => throw (.badSource type)
  | .function _ =>
      requireTarget .draw target
      modify (·.modifySteps context (· ++ [{ ownTarget := target, source }]))

def restrict (context : Nat) (predicate : Callback F) : Action F σ PUnit := do
  let _ ← lastStep .restrict context
  amendLast context fun step => step.qualified (.filter predicate)

/-- Bind a further value to a target. With no step yet, the value is made and captured at once;
otherwise the last step makes it for each of its items. -/
def define (meaning : Meaning F σ) (context : Nat) (target : Target) (thunk : Callback F) :
    Action F σ PUnit := do
  requireTarget .define target
  if ((← get).steps context).isEmpty then
    deposit target (← thunk.call meaning none)
  else
    amendLast context fun step => step.qualified (.define target thunk)

/-- Attach a block of results to the last step. It takes the place of an earlier one. -/
def conclude (context : Nat) (block : Callback F) : Action F σ PUnit := do
  let step ← lastStep .conclude context
  if step.hasBlock then Action.record .blockReplaced
  amendLast context fun step => { step with block }

def resolve (verb : Verb) : Option Nat → Action F σ Nat
  | some context => return context
  | none => innermost verb.text

end Context

inductive Call (F : Type) where
  | draw (target : Target) (source : Callback F)
  | restrict (predicate : Callback F)
  | define (target : Target) (thunk : Callback F)
  | conclude (block : Callback F)

namespace Call

def verb : Call F → Verb
  | .draw _ _ => .draw
  | .restrict _ => .restrict
  | .define _ _ => .define
  | .conclude _ => .conclude

def perform (meaning : Meaning F σ) (context : Nat) : Call F → Action F σ PUnit
  | .draw target source => Context.draw context target source
  | .restrict predicate => Context.restrict context predicate
  | .define target thunk => Context.define meaning context target thunk
  | .conclude block => Context.conclude context block

/-- Make a call on the context that is given, or else on the innermost open one. -/
def make (meaning : Meaning F σ) (named : Option Nat) (call : Call F) : Action F σ PUnit := do
  call.perform meaning (← Context.resolve call.verb named)

end Call

/-- A description: what is done with a context to register steps in it. -/
abbrev Description (F σ : Type) := Nat → Action F σ PUnit

namespace Description

def steps (description : Description F σ) : Action F σ (List StepRef) := do
  let context ← Context.withNew fun context => do
    description context
    return context
  Context.stepRefs context

/-- Run a description and chain what it registered. Its context is closed by then. -/
def chain (meaning : Meaning F σ) (description : Description F σ) : Action F σ (Value F) := do
  chainSteps meaning (← description.steps)

/-- A description that is no function fails when it is run. -/
def ofObject (type : TypeName) : Description F σ :=
  fun _ => throw (.notCallable type)

end Description

end Bindery
