import Bindery.Value

set_option autoImplicit false

namespace Bindery

/-- The four calls that register something in a description. -/
inductive Verb where
  | draw
  | restrict
  | define
  | conclude
  deriving DecidableEq, Inhabited

def Verb.text : Verb → String
  | .draw => "pick"
  | .restrict => "satisfy"
  | .define => "let"
  | .conclude => "yield_"

/-- The kinds of error that a script may raise by itself. -/
inductive RaisedKind where
  | value
  | runtime
  | type
  | order
  | other (name : String)
  deriving DecidableEq, Inhabited

/-- What a name of a script can stand for. -/
inductive NameKind where
  | param
  | variable
  | target
  | definition
  | context
  | plan
  deriving DecidableEq, Inhabited

def NameKind.text : NameKind → String
  | .param => "param"
  | .variable => "var"
  | .target => "target"
  | .definition => "def"
  | .context => "context"
  | .plan => "plan"

/-- What the operands of a form have to be. -/
inductive Need where
  | ints
  | listOrTuple
  | stringsOrLists
  | listMonad
  | deferredOrList
  deriving DecidableEq, Inhabited

def Need.text : Need → String
  | .ints => "ints"
  | .listOrTuple => "a list or tuple"
  | .stringsOrLists => "two strings or two lists"
  | .listMonad => "a ListMonad"
  | .deferredOrList => "a Lazy or ListMonad"

/-- Failures of script expressions and of the monad-like values that scripts build. -/
inductive Fault where
  | noArgument
  | unknown (kind : NameKind) (name : String)
  | needs (form : String) (need : Need)
  | divisionByZero
  | indexOutOfRange
  | unreadable
  deriving DecidableEq, Inhabited

def Fault.message : Fault → String
  | .noArgument => "no argument"
  | .unknown kind name => "unknown " ++ kind.text ++ ": " ++ name
  | .needs form need => form ++ " needs " ++ need.text
  | .divisionByZero => "division by zero"
  | .indexOutOfRange => "index out of range"
  | .unreadable => "target cannot be read"

inductive Error where
  /-- A call that amends the last step came before any step. -/
  | outOfOrder (verb : Verb)
  /-- A block of results sits on a step that is not the last. -/
  | misplacedBlock (step total : Nat)
  | noSteps
  /-- A bundle has another number of components than its tuple target has parts. -/
  | arityMismatch (components parts : Nat)
  /-- A tuple target received something that is no bundle. -/
  | notBundled (parts : Nat) (type : TypeName)
  /-- A call for the innermost context came while none was open. -/
  | outsideDescription (operation : String)
  | notMonadLike (index : Int) (type : TypeName) (lacking : List Operation)
  | badSource (type : TypeName)
  | badTarget (verb : Verb) (type : TypeName)
  /-- A value was sent to an object that cannot take values. -/
  | unsupportedTarget (type : TypeName)
  | notCallable (type : TypeName)
  | missingOperation (operation : Operation) (type : TypeName)
  | missingMember (name : String) (type : TypeName)
  | noSuchStep
  /-- A position is larger than any sequence can have. -/
  | oversizedPosition
  | badKey (type : TypeName)
  | fault (cause : Fault)
  /-- An error that a function, an iterator or a target raised by itself. -/
  | raised (kind : RaisedKind) (message : String)
  /-- The run was cut off. -/
  | exhausted
  deriving DecidableEq, Inhabited

namespace Error

def operationList (operations : List Operation) : String :=
  ", ".intercalate (operations.map Operation.text)

def memberText (name : String) (type : TypeName) : String :=
  "'" ++ type.text ++ "' object has no attribute '" ++ name ++ "'"

def message : Error → String
  | .outOfOrder verb => verb.text ++ "() should be called after pick()."
  | .misplacedBlock step total =>
      "yield_() must be the last statement: step " ++ toString step ++ " of " ++ toString total ++
        " carries it"
  | .noSteps =>
      "comprehend() block registered no steps; call pick() at least once."
  | .arityMismatch components parts =>
      "tuple arity mismatch: " ++ toString components ++ " values for " ++ toString parts ++
        " targets"
  | .notBundled parts type =>
      "tuple arity mismatch: expected CapturedTuple of " ++ toString parts ++ ", got " ++ type.text
  | .outsideDescription operation => operation ++ "() called outside comprehend()."
  | .notMonadLike index type lacking =>
      "Step " ++ toString index ++ " generator returned " ++ type.text ++ ", which lacks: " ++
        operationList lacking
  | .badSource type => "pick() generator must be callable, got " ++ type.text
  | .badTarget verb type => verb.text ++ "() target must provide capture(), got " ++ type.text
  | .unsupportedTarget type => "Unsupported capture target: " ++ type.classText
  | .notCallable type => "'" ++ type.text ++ "' object is not callable"
  | .missingOperation operation type => memberText operation.text type
  | .missingMember name type => memberText name type
  | .noSuchStep => "tuple index out of range"
  | .oversizedPosition => "cannot fit 'int' into an index-sized integer"
  | .badKey type => "unhashable type: '" ++ type.text ++ "'"
  | .fault cause => cause.message
  | .raised _ message => message
  | .exhausted => "maximum recursion depth exceeded"

/-- The classes of error that callers tell apart by kind. -/
inductive Kind where
  | order
  | noSteps
  | tupleArity
  | outsideDescription
  | notMonadLike
  | type
  | attribute
  | index
  | value
  | runtime
  | fault
  | recursion
  | other (name : String)
  deriving DecidableEq

def kind : Error → Kind
  | .outOfOrder _ | .misplacedBlock _ _ => .order
  | .noSteps => .noSteps
  | .arityMismatch _ _ | .notBundled _ _ => .tupleArity
  | .outsideDescription _ => .outsideDescription
  | .notMonadLike _ _ _ => .notMonadLike
  | .badSource _ | .badTarget _ _ | .unsupportedTarget _ | .notCallable _ | .badKey _ => .type
  | .missingOperation _ _ | .missingMember _ _ => .attribute
  | .noSuchStep | .oversizedPosition => .index
  | .fault _ => .fault
  | .raised .value _ => .value
  | .raised .runtime _ => .runtime
  | .raised .type _ => .type
  | .raised .order _ => .order
  | .raised (.other name) _ => .other name
  | .exhausted => .recursion

def Kind.isLibrary : Kind → Bool
  | .order | .noSteps | .tupleArity | .outsideDescription | .notMonadLike => true
  | _ => false

def Kind.isTypeError : Kind → Bool
  | .notMonadLike | .type => true
  | _ => false

end Error

end Bindery
