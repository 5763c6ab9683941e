import Bindery.Plan.Report
import Bindery.Yaml.Document

set_option autoImplicit false

namespace Bindery

def StepSummary.document (summary : StepSummary) : Json :=
  .obj
    [("filters", .int summary.filters),
      ("has_yield", .bool summary.hasBlock),
      ("index", .int summary.index),
      ("lets", .int summary.definitions),
      ("target", summary.label),
      ("target_kind", .str summary.kind.text)]

/-- The fields of the document of a plan whose steps have these summaries. -/
def planFields (total : Nat) (summaries : List StepSummary) : List (String × Json) :=
  [("steps", .arr (summaries.map StepSummary.document)), ("total_steps", .int total)]

namespace Plan

variable {F σ : Type}

def fields (plan : Plan) (world : World F σ) : List (String × Json) :=
  planFields plan.size (plan.summariesIn world)

def document (plan : Plan) (world : World F σ) : Json :=
  .obj (plan.fields world)

def jsonText (plan : Plan) (world : World F σ) : String :=
  (plan.document world).text

def yamlText (plan : Plan) (world : World F σ) : String :=
  String.ofList (Yaml.document (plan.fields world))

end Plan

def Report.document (report : Report) : Json :=
  .obj
    [("discarded_steps", .arr (report.discarded.map fun index => Json.int (index : Nat))),
      ("has_yield", .bool report.hasBlock),
      ("total_filters", .int report.totalFilters),
      ("total_lets", .int report.totalDefinitions),
      ("total_steps", .int report.totalSteps),
      ("warnings", .arr (report.warnings.map .str)),
      ("yield_index", (report.blockIndex.map fun index => Json.int (index : Nat)).getD .null)]

end Bindery
