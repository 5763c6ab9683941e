import Bindery.Plan

set_option autoImplicit false

namespace Bindery

structure Report where
  totalSteps : Nat
  totalFilters : Nat := 0
  totalDefinitions : Nat := 0
  blockIndex : Option Nat := none
  discarded : List Nat := []
  warnings : List String := []

namespace Report

def hasBlock (report : Report) : Bool := report.blockIndex.isSome

/-- A warning is listed once only. -/
def warn (report : Report) (warning : String) : Report :=
  if warning ∈ report.warnings then report
  else { report with warnings := report.warnings ++ [warning] }

def warnIf (report : Report) (condition : Bool) (warning : String) : Report :=
  if condition then report.warn warning else report

/-- Take one step into account. The last block of results is the one that is remembered. -/
def addStep (report : Report) (step : StepSummary) : Report :=
  { report with
    totalFilters := report.totalFilters + step.filters
    totalDefinitions := report.totalDefinitions + step.definitions
    blockIndex := if step.hasBlock then some step.index else report.blockIndex
    discarded :=
      if step.kind = .discard then report.discarded ++ [step.index] else report.discarded }

def emptyWarning : String := "Empty pipeline: no pick() registered"

def misplacedWarning (blockIndex last : Nat) : String :=
  "Misplaced yield: on step " ++ toString blockIndex ++ ", last step is " ++ toString last

def noBlockWarning : String :=
  "No yield: the last step's monadic value is returned as is"

def discardedWarning (discarded : List Nat) : String :=
  "Discarded values: steps " ++ ", ".intercalate (discarded.map toString) ++ " have no target"

/-- The warnings that the figures of a report call for. An empty plan gets no other warning. -/
def withWarnings (report : Report) : Report :=
  if report.totalSteps = 0 then report.warn emptyWarning
  else
    let last := report.totalSteps - 1
    let placed :=
      match report.blockIndex with
      | some index => report.warnIf (index != last) (misplacedWarning index last)
      | none => report.warn noBlockWarning
    placed.warnIf (!report.discarded.isEmpty) (discardedWarning report.discarded)

def ofSummaries (steps : List StepSummary) : Report :=
  (steps.foldl addStep { totalSteps := steps.length }).withWarnings

end Report

end Bindery
