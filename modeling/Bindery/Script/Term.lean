import Bindery.World

set_option autoImplicit false

namespace Bindery.Script

inductive Arithmetic where
  | add
  | subtract
  | multiply
  | quotient
  | remainder
  | less
  | lessOrEqual
  | greater
  | greaterOrEqual
  deriving DecidableEq, Inhabited

def Arithmetic.text : Arithmetic → String
  | .add => "+"
  | .subtract => "-"
  | .multiply => "*"
  | .quotient => "//"
  | .remainder => "%"
  | .less => "<"
  | .lessOrEqual => "<="
  | .greater => ">"
  | .greaterOrEqual => ">="

inductive Constant where
  | null
  | bool (value : Bool)
  | int (value : Int)
  | str (text : Text)
  deriving DecidableEq, Inhabited

inductive Collection where
  | list
  | tuple
  | bundle
  deriving DecidableEq, Inhabited

inductive ListKind where
  | plain
  | traced
  | deferred
  deriving DecidableEq, Inhabited

def ListKind.text : ListKind → String
  | .plain => "List"
  | .traced => "Probe"
  | .deferred => "Lazy"

mutual

/-- An expression: constants, names, operations on values, and what a description is chained for. -/
inductive Expr where
  | constant (value : Constant)
  | argument
  | param (name : String)
  | variable (name : String)
  | read (target : String)
  | choose (condition accepted refused : Expr)
  | both (left right : Expr)
  | either (left right : Expr)
  | negation (operand : Expr)
  | arithmetic (operator : Arithmetic) (left right : Expr)
  | alike (left right : Expr)
  | unlike (left right : Expr)
  | collection (kind : Collection) (items : List Expr)
  | iterator (failure : Option String) (items : List Expr)
  | dictionary (entries : List (Expr × Expr))
  | octets (hex : String)
  | buffer (hex : String)
  | float (numeral : String)
  | unbound
  | range (first last : Expr)
  | length (items : Expr)
  | sum (items : Expr)
  | nth (items index : Expr)
  | join (left right : Expr)
  | monad (kind : ListKind) (items : Expr)
  | just (content : Expr)
  | nothing
  | stub (methods : List (Operation × Expr)) (attributes : List (Operation × Bool))
  | force (value : Expr)
  | note (label : String) (value : Expr)
  | fail (kind : RaisedKind) (message : String)
  | afterwards (statements : List Stmt) (result : Expr)
  | chainBlock (block : Block)
  | call (definition : String) (arguments : List Expr) (named : List (String × Expr))
  | chainPlan (plan : String)
  | chainContext (context : String)
  | generate (context : String) (position : Int)
  | depth

/-- A statement. One that registers something names its context, or leaves it to the innermost
open one. -/
inductive Stmt where
  | draw (context : Option String) (target : TargetExpr) (source : FunctionExpr)
  | restrict (context : Option String) (predicate : FunctionExpr)
  | define (context : Option String) (target : TargetExpr) (thunk : FunctionExpr)
  | conclude (context : Option String) (block : FunctionExpr)
  | evaluate (expr : Expr)
  | assign (name : String) (expr : Expr)
  | attempt (body : List Stmt)
  | nested (name : String) (body : List Stmt)
  | newContext (name : String)
  | steps (context : String)
  | current (operation : String)
  | plan (name : String) (block : Block)
  | joinPlans (name : String) (parts : List (String × Nat × Nat))
  | summaries (plan : String)
  | document (plan : String)
  | jsonText (plan : String)
  | yamlText (plan : String)
  | report (plan : String) (warnings : List String)
  | deposit (target : TargetExpr) (value : Expr)
  | holdsValue (target : TargetExpr)
  | targetInfo (target : TargetExpr)
  | targetsEqual (left right : TargetExpr)
  | settle (target : TargetExpr) (value : Expr)
  | sequenceItems (value : Expr)
  | operations (value : Expr)
  | requireMonadLike (value : Expr) (index : Int)
  | literal (value : Expr)
  | definitionName (definition : String)
  | version

/-- What is written where a function belongs: a function, or an expression whose value is passed
on as if it were one. -/
inductive FunctionExpr where
  | body (result : Expr)
  | value (expr : Expr)

/-- A description: statements that are run with a new context stored under a name, or an
expression whose value is passed on as if it were one. -/
inductive Block where
  | body (context : String) (statements : List Stmt)
  | value (expr : Expr)

/-- What is written where a target belongs: nothing, a declared target, a new tuple, or an object
that takes no values. -/
inductive TargetExpr where
  | discard
  | declared (key : String)
  | tuple (parts : List TargetExpr)
  | value (expr : Expr)
  | bad

end

inductive Declaration where
  | slot (name : Option Text) (initial : Option Expr)
  | sequence (name : Option Text)
  | external (name : Option Text) (failure : Option String)
  | tuple (parts : List TargetExpr)

/-- A description with parameters, some of which have defaults. -/
structure Definition where
  params : List String
  defaults : List (String × Constant)
  block : Block

/-- A script: target declarations, definitions, and the statements to run. -/
structure Program where
  declarations : List (String × Declaration)
  definitions : List (String × Definition)
  statements : List Stmt

/-- A function of a script, with the parameters of the place where it was made. -/
inductive Closure where
  | make (result : Expr) (params : List (String × Value Closure))

end Bindery.Script
