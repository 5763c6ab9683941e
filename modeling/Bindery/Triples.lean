import Bindery.Script.Session

set_option autoImplicit false

namespace Bindery.Triples

open Script

def integer (value : Int) : Expr := .constant (.int value)

def context : Option String := some "c"

/-- The sides up to thirty, from one that is given. -/
def sidesFrom (first : Expr) : FunctionExpr :=
  .body (.monad .plain (.range first (integer 31)))

def square (side : String) : Expr := .arithmetic .multiply (.read side) (.read side)

/-- Three sides in ascending order, of which the squares of the shorter two add up to the square of
the longest. -/
def triples : Block :=
  .body "c"
    [.draw context (.declared "x") (sidesFrom (integer 1)),
      .draw context (.declared "y") (sidesFrom (.read "x")),
      .draw context (.declared "z") (sidesFrom (.read "y")),
      .restrict context (.body (.alike (.arithmetic .add (square "x") (square "y")) (square "z"))),
      .conclude context (.body (.collection .tuple [.read "x", .read "y", .read "z"]))]

def sides : List (String × Declaration) :=
  ["x", "y", "z"].map fun side => (side, .slot (some (.plain side)) none)

def rule : String := String.ofList (List.replicate 70 '=')

def heading (title : String) : List String := [rule, title, rule]

def planLines (plan : Plan) (world : World Closure Scope) : List String :=
  let report := Report.ofSummaries (plan.summariesIn world)
  heading "PLAN" ++ [plan.yamlText world] ++
    ["Steps: " ++ toString report.totalSteps ++ "  Filters: " ++ toString report.totalFilters ++
      "  Lets: " ++ toString report.totalDefinitions] ++
    report.warnings.map ("  WARNING: " ++ ·)

def resultLines (items : List (Value Closure)) : List String :=
  "" :: heading "RESULT" ++ items.map fun item => "  " ++ String.ofList (Literal.value item)

def lines : Run (List String) := do
  Program.declareAll sides
  let plan ← Plan.ofDescription (← Program.runner.description {} triples)
  let shown := planLines plan (← get)
  let chained ← plan.chain Program.runner.meaning
  return shown ++ resultLines (← listItems chained)

def output : String :=
  match (lines.outcome Program.start).1 with
  | .ok shown => String.join (shown.map (· ++ "\n"))
  | .error error => error.message ++ "\n"

end Bindery.Triples
