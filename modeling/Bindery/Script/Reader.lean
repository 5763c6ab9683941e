import Bindery.Json
import Bindery.Script.Term

set_option autoImplicit false

namespace Bindery.Script

namespace Reader

def constant? : Json → Option Constant
  | .null => some .null
  | .bool value => some (.bool value)
  | .int value => some (.int value)
  | .string text => some (.str text)
  | _ => none

def arithmetic? (form : String) : Option Arithmetic :=
  [Arithmetic.add, .subtract, .multiply, .quotient, .remainder, .less, .lessOrEqual, .greater,
    .greaterOrEqual].find? (·.text = form)

def operation? (name : String) : Option Operation :=
  Operation.all.find? (·.text = name)

def raisedKind (name : String) : RaisedKind :=
  if name = "ValueError" then .value
  else if name = "RuntimeError" then .runtime
  else if name = "TypeError" then .type
  else if name = "OrderError" then .order
  else .other name

def bare? (form : String) : Option Expr :=
  if form = "arg" then some .argument
  else if form = "unbound" then some .unbound
  else if form = "Nothing" then some .nothing
  else if form = "depth" then some .depth
  else none

def worded? (form word : String) : Option Expr :=
  if form = "param" then some (.param word)
  else if form = "var" then some (.variable word)
  else if form = "ref" then some (.read word)
  else if form = "bytes" then some (.octets word)
  else if form = "bytearray" then some (.buffer word)
  else if form = "float" then some (.float word)
  else if form = "compose_plan" then some (.chainPlan word)
  else if form = "compose_ctx" then some (.chainContext word)
  else none

def unary? (form : String) : Option (Expr → Expr) :=
  if form = "not" then some .negation
  else if form = "len" then some .length
  else if form = "sum" then some .sum
  else if form = "List" then some (.monad .plain)
  else if form = "Probe" then some (.monad .traced)
  else if form = "Lazy" then some (.monad .deferred)
  else if form = "Just" then some .just
  else if form = "force" then some .force
  else none

def binary? (form : String) : Option (Expr → Expr → Expr) :=
  if form = "and" then some .both
  else if form = "or" then some .either
  else if form = "==" then some .alike
  else if form = "!=" then some .unlike
  else if form = "range" then some .range
  else if form = "nth" then some .nth
  else if form = "cat" then some .join
  else (arithmetic? form).map .arithmetic

def variadic? (form : String) : Option (List Expr → Expr) :=
  if form = "list" then some (.collection .list)
  else if form = "tuple" then some (.collection .tuple)
  else if form = "captured" then some (.collection .bundle)
  else if form = "iter" then some (.iterator none)
  else none

def word? (name : String) (value : Json) : Option String :=
  (value.field? name).bind Json.str?

/-- What is built from the word of a field that must be there. -/
def withWord {α : Type} (name : String) (value : Json) (build : String → α) : Option α :=
  (word? name value).map build

def nat? (value : Json) : Option Nat :=
  value.int?.map Int.toNat

/-- A part of a joined plan: the plan's name and two positions. -/
def planPart? : Json → Option (String × Nat × Nat)
  | .arr [.str name, first, last] => do return (name, ← nat? first, ← nat? last)
  | _ => none

mutual

/-- An expression. `fuel` bounds the depth of the reading. -/
def expr? : Nat → Json → Option Expr
  | 0, _ => none
  | fuel + 1, .arr (.str form :: parts) => do
      if form = "dict" then return .dictionary (← parts.mapM (keyed? fuel))
      else if form = "iter_raise" then
        match parts with
        | .str message :: items =>
            return .iterator (some message) (← items.mapM (expr? fuel))
        | _ => none
      else
        match variadic? form, parts with
        | some build, parts => return build (← parts.mapM (expr? fuel))
        | none, [] => bare? form
        | none, [part] => unaryForm? fuel form part
        | none, [left, right] => binaryForm? fuel form left right
        | none, [first, second, third] => ternaryForm? fuel form first second third
        | none, _ => none
  | _ + 1, json => (constant? json).map .constant

def unaryForm? : Nat → String → Json → Option Expr
  | 0, _, _ => none
  | fuel + 1, form, part =>
      match unary? form with
      | some build => (expr? fuel part).map build
      | none =>
          if form = "comprehend" ∨ form = "for_" then (block? fuel part).map .chainBlock
          else part.str?.bind (worded? form)

def binaryForm? : Nat → String → Json → Json → Option Expr
  | 0, _, _, _ => none
  | fuel + 1, form, left, right =>
      match binary? form with
      | some build => do return build (← expr? fuel left) (← expr? fuel right)
      | none =>
          if form = "do" then do
            let statements ← (← left.arr?).mapM (stmt? fuel)
            return .afterwards statements (← expr? fuel right)
          else if form = "Stub" then do
            let methods ← (← left.obj?).mapM fun (name, value) => do
              return (← operation? name, ← expr? fuel value)
            let attributes ← (← right.obj?).mapM fun (name, value) => do
              return (← operation? name, value.isNull)
            return .stub methods attributes
          else if form = "log" then do return .note (← left.str?) (← expr? fuel right)
          else if form = "raise" then do
            return .fail (raisedKind (← left.str?)) (← right.str?)
          else if form = "gen" then do return .generate (← left.str?) (← right.int?)
          else none

def ternaryForm? : Nat → String → Json → Json → Json → Option Expr
  | 0, _, _, _, _ => none
  | fuel + 1, form, first, second, third => do
      if form = "if" then
        return .choose (← expr? fuel first) (← expr? fuel second) (← expr? fuel third)
      else if form = "call" then
        let positional ← (← second.arr?).mapM (expr? fuel)
        let named ← (← third.obj?).mapM fun (name, value) => do
          return (name, ← expr? fuel value)
        return .call (← first.str?) positional named
      else none

def keyed? : Nat → Json → Option (Expr × Expr)
  | fuel + 1, .arr [key, value] => do return (← expr? fuel key, ← expr? fuel value)
  | _, _ => none

def function? : Nat → Json → Option FunctionExpr
  | 0, _ => none
  | fuel + 1, json =>
      match json.field? "fn" with
      | some result => (expr? fuel result).map .body
      | none => (expr? fuel json).map .value

def block? : Nat → Json → Option Block
  | 0, _ => none
  | fuel + 1, json =>
      match json.field? "do" with
      | some statements => do
          let body ← (← statements.arr?).mapM (stmt? fuel)
          return .body (← word? "name" json) body
      | none => do return .value (← expr? fuel (← json.field? "value"))

def target? : Nat → Json → Option TargetExpr
  | 0, _ => none
  | _ + 1, .null => some .discard
  | _ + 1, .str key => some (.declared key)
  | fuel + 1, json =>
      match json.field? "tuple", json.field? "value", json.field? "bad" with
      | some parts, _, _ => do return .tuple (← (← parts.arr?).mapM (target? fuel))
      | none, some expr, _ => (expr? fuel expr).map .value
      | none, none, some _ => some .bad
      | none, none, none => none

def stmt? : Nat → Json → Option Stmt
  | 0, _ => none
  | fuel + 1, json => do
      let form ← word? "do" json
      let exprAt (name : String) : Option Expr := do expr? fuel (← json.field? name)
      let targetAt (name : String) : Option TargetExpr := target? fuel (json.fieldD name)
      let functionAt (name : String) : Option FunctionExpr := function? fuel (json.fieldD name)
      let bodyAt (name : String) : Option (List Stmt) := do
        (← (← json.field? name).arr?).mapM (stmt? fuel)
      let context := word? "on" json
      if form = "pick" then return .draw context (← targetAt "target") (← functionAt "gen")
      else if form = "satisfy" then return .restrict context (← functionAt "fn")
      else if form = "let" then
        return .define context (← targetAt "target") (← functionAt "thunk")
      else if form = "yield_" then return .conclude context (← functionAt "fn")
      else if form = "eval" then return .evaluate (← exprAt "expr")
      else if form = "set" then return .assign (← word? "var" json) (← exprAt "expr")
      else if form = "try" then return .attempt (← bodyAt "body")
      else if form = "open" then return .nested (← word? "name" json) (← bodyAt "body")
      else if form = "new_context" then withWord "name" json .newContext
      else if form = "steps" then withWord "ctx" json .steps
      else if form = "current" then
        return .current ((word? "op" json).getD "current_context")
      else if form = "plan" then
        return .plan (← word? "name" json) (← block? fuel (← json.field? "block"))
      else if form = "join" then
        return .joinPlans (← word? "name" json)
          (← (← (← json.field? "parts").arr?).mapM planPart?)
      else if form = "describe" then withWord "plan" json .summaries
      else if form = "to_dict" then withWord "plan" json .document
      else if form = "to_json" then withWord "plan" json .jsonText
      else if form = "to_yaml" then withWord "plan" json .yamlText
      else if form = "analyze" then
        let added := (json.field? "add").getD (.arr [])
        return .report (← word? "plan" json) (← (← added.arr?).mapM Json.str?)
      else if form = "capture" then return .deposit (← targetAt "target") (← exprAt "value")
      else if form = "is_bound" then return .holdsValue (← targetAt "target")
      else if form = "target_info" then return .targetInfo (← targetAt "target")
      else if form = "target_eq" then return .targetsEqual (← targetAt "a") (← targetAt "b")
      else if form = "materialize" then return .settle (← targetAt "target") (← exprAt "value")
      else if form = "as_sequence" then return .sequenceItems (← exprAt "value")
      else if form = "protocol" then return .operations (← exprAt "value")
      else if form = "ensure" then
        return .requireMonadLike (← exprAt "value") (← (← json.field? "index").int?)
      else if form = "repr" then return .literal (← exprAt "value")
      else if form = "def_name" then withWord "def" json .definitionName
      else if form = "version" then return .version
      else none

end

/-- A name counts only when it is a text. -/
def declaration? (fuel : Nat) (json : Json) : Option Declaration := do
  let kind ← word? "kind" json
  let name := (json.field? "name").bind Json.text?
  if kind = "ref" then
    match json.field? "init" with
    | some expr => return .slot name (some (← expr? fuel expr))
    | none => return .slot name none
  else if kind = "seq" then return .sequence name
  else if kind = "ext" then return .external name (word? "raise" json)
  else if kind = "tuple" then
    return .tuple (← (← (← json.field? "of").arr?).mapM (target? fuel))
  else none

def definition? (fuel : Nat) (json : Json) : Option Definition := do
  let params ← (← (← json.field? "params").arr?).mapM Json.str?
  let defaults ← (← ((json.field? "defaults").getD (.obj [])).obj?).mapM fun (name, value) => do
    return (name, ← constant? value)
  let block ← block? fuel (← json.field? "block")
  return { params, defaults, block }

def entries? {α : Type} (read : Json → Option α) (json : Json) :
    Option (List (String × α)) := do
  match json with
  | .null => return []
  | json => (← json.obj?).mapM fun (name, value) => do return (name, ← read value)

end Reader

/-- The script that a JSON value stands for. Each form is read at most two calls below the one
around it, so twice the value's depth bounds the calls. -/
def Program.ofJson? (json : Json) : Option Program := do
  let fuel := 2 * json.depth
  let declarations ← Reader.entries? (Reader.declaration? fuel) (json.fieldD "targets")
  let definitions ← Reader.entries? (Reader.definition? fuel) (json.fieldD "defs")
  let statements ← (← (← json.field? "run").arr?).mapM (Reader.stmt? fuel)
  return { declarations, definitions, statements }

end Bindery.Script
