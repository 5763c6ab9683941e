import Bindery.Number.Binary64
import Bindery.Target

set_option autoImplicit false

namespace Bindery

inductive Operation where
  | map
  | flatMap
  | filter
  | unit
  deriving DecidableEq, Inhabited

namespace Operation

def text : Operation → String
  | .map => "map"
  | .flatMap => "flat_map"
  | .filter => "filter"
  | .unit => "unit"

/-- The operations that chaining steps calls for, in the order in which they are looked for. -/
def required : List Operation := [.map, .flatMap, .filter]

def all : List Operation := [.unit, .map, .flatMap, .filter]

end Operation

/-- What a description was given where a function belongs: a function, or another object, which
fails when it is called. -/
inductive Callback (F : Type) where
  | function (body : F)
  | object (type : TypeName)
  deriving Inhabited

namespace Callback

variable {F : Type}

/-- Whether the callback is the null object, which stands for no callback. -/
def isNull : Callback F → Bool
  | .object .null => true
  | _ => false

end Callback

/-- A registered step: the context that it belongs to and its place there. -/
structure StepRef where
  context : Nat
  position : Nat
  deriving DecidableEq, Inhabited

/-- What is done with each item that a monad-like value hands on: test it by a filter, settle it,
pair it with a defined value, make a result of it, or proceed with the steps that are left. -/
inductive Continuation (F : Type) where
  | test (target : Target) (predicate : Callback F)
  | settle (target : Target)
  | pair (previous target : Target) (thunk : Callback F)
  | conclude (target : Target) (block : Callback F)
  | proceed (target : Target) (rest : List StepRef) (index : Nat)
  deriving Inhabited

/-- An operation that a deferred value has yet to run. -/
structure Stage (F : Type) where
  operation : Operation
  continuation : Continuation F
  deriving Inhabited

/-- A value. A bundle is the result of a definition, and never an ordinary tuple. An iterator is
named by its number; the items that it has left are part of the state of a run. A stub has methods
with fixed results, and attributes that are no methods, each marked when it is null. A monad-like
value is an object with an identity: its number, which it is given when a script takes hold of it.
The result of an operation has none yet. A deferred one keeps the items that it starts from and the
stages that forcing it will run. -/
inductive Value (F : Type) where
  | null
  | bool (value : Bool)
  | int (value : Int)
  | float (value : Binary64)
  | str (text : Text)
  | list (items : List (Value F))
  | tuple (items : List (Value F))
  | bundle (components : List (Value F))
  | dictionary (entries : List (Value F × Value F))
  | octets (content : List UInt8)
  | buffer (content : List UInt8)
  | unbound
  | iterator (number : Nat)
  | listMonad (number : Option Nat) (traced : Bool) (items : List (Value F))
  | deferred (number : Option Nat) (items : List (Value F)) (stages : List (Stage F))
  | just (number : Option Nat) (content : Value F)
  | nothing (number : Option Nat)
  | stub (number : Nat) (methods : List (Operation × Value F))
      (attributes : List (Operation × Bool))
  deriving Inhabited

namespace Value

variable {F : Type}

def typeName : Value F → TypeName
  | .null => .null
  | .bool _ => .bool
  | .int _ => .int
  | .float _ => .float
  | .str _ => .str
  | .list _ => .list
  | .tuple _ => .tuple
  | .bundle _ => .bundle
  | .dictionary _ => .dictionary
  | .octets _ => .octets
  | .buffer _ => .buffer
  | .unbound => .unbound
  | .iterator _ => .iterator
  | .listMonad _ traced _ => if traced then .probe else .listMonad
  | .deferred _ _ _ => .deferred
  | .just _ _ => .maybe
  | .nothing _ => .maybe
  | .stub _ _ _ => .stub

/-- What a test on a value means: null, false, zeros and empty data are false, all else is
true. -/
def isTrue : Value F → Bool
  | .null => false
  | .bool value => value
  | .int value => value != 0
  | .float value => !value.isZero
  | .str text => !text.points.isEmpty
  | .list items => !items.isEmpty
  | .tuple items => !items.isEmpty
  | .bundle components => !components.isEmpty
  | .dictionary entries => !entries.isEmpty
  | .octets content => !content.isEmpty
  | .buffer content => !content.isEmpty
  | _ => true

def provides (value : Value F) (operation : Operation) : Bool :=
  match value with
  | .listMonad _ _ _ | .deferred _ _ _ | .just _ _ | .nothing _ => true
  | .stub _ methods attributes =>
      methods.any (·.1 = operation) && !attributes.any (·.1 = operation)
  | _ => false

/-- Whether a value has an attribute with the name of an operation, callable or not, that is not
null. -/
def hasMember (value : Value F) (operation : Operation) : Bool :=
  match value with
  | .stub _ _ attributes =>
      match attributes.lookup operation with
      | some isNull => !isNull
      | none => value.provides operation
  | _ => value.provides operation

def lacking (value : Value F) : List Operation :=
  Operation.required.filter fun operation => !value.provides operation

def isMonadLike (value : Value F) : Bool :=
  value.lacking.isEmpty

/-- Whether a value has the shape of a monad: all four operations by name. -/
def isMonadShaped (value : Value F) : Bool :=
  Operation.all.all value.hasMember

def items? : Value F → Option (List (Value F))
  | .list items => some items
  | .tuple items => some items
  | .bundle components => some components
  | _ => none

def int? : Value F → Option Int
  | .int value => some value
  | _ => none

/-- The value with the given number, if it is an object that has none yet. -/
def numbered (fresh : Nat) : Value F → Value F
  | .listMonad none traced items => .listMonad (some fresh) traced items
  | .deferred none items stages => .deferred (some fresh) items stages
  | .just none content => .just (some fresh) content
  | .nothing none => .nothing (some fresh)
  | value => value

mutual

def likeness : Value F → Likeness
  | .null => .null
  | .bool value => .whole (if value then 1 else 0)
  | .int value => .whole value
  | .float value => .ofDouble value
  | .str text => .text text
  | .list items => .list (likenesses items)
  | .tuple items => .tuple (likenesses items)
  | .bundle components => .tuple (likenesses components)
  | .dictionary entries => .dictionary (entryLikenesses entries)
  | .octets content => .octets content
  | .buffer content => .octets content
  | .unbound => .unbound
  | .iterator number => .iterator number
  | .listMonad number _ _ => .object number
  | .deferred number _ _ => .object number
  | .just number _ => .object number
  | .nothing number => .object number
  | .stub number _ _ => .object (some number)

def likenesses : List (Value F) → List Likeness
  | [] => []
  | item :: rest => likeness item :: likenesses rest

def entryLikenesses : List (Value F × Value F) → List (Likeness × Likeness)
  | [] => []
  | (key, content) :: rest => (likeness key, likeness content) :: entryLikenesses rest

end

end Value

end Bindery
