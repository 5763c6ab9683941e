set_option autoImplicit false

namespace Bindery

inductive TypeName where
  | null
  | bool
  | int
  | float
  | str
  | list
  | tuple
  | bundle
  | dictionary
  | octets
  | buffer
  | unbound
  | iterator
  | listMonad
  | probe
  | deferred
  | maybe
  | stub
  | slot
  | sequence
  | tupleTarget
  | external
  | badTarget
  deriving DecidableEq, Inhabited

namespace TypeName

def text : TypeName → String
  | .null => "NoneType"
  | .bool => "bool"
  | .int => "int"
  | .float => "float"
  | .str => "str"
  | .list => "list"
  | .tuple => "tuple"
  | .bundle => "CapturedTuple"
  | .dictionary => "dict"
  | .octets => "bytes"
  | .buffer => "bytearray"
  | .unbound => "_Unbound"
  | .iterator => "OneShot"
  | .listMonad => "ListMonad"
  | .probe => "Probe"
  | .deferred => "Lazy"
  | .maybe => "Maybe"
  | .stub => "Stub"
  | .slot => "Ref"
  | .sequence => "SeqRef"
  | .tupleTarget => "TupleTarget"
  | .external => "Collector"
  | .badTarget => "BadTarget"

/-- Where a type is defined: built in, by the comprehension package, or by its client. -/
inductive Home where
  | builtin
  | package
  | client
  deriving DecidableEq

def home : TypeName → Home
  | .bundle | .unbound | .slot | .sequence | .tupleTarget => .package
  | .iterator | .listMonad | .probe | .deferred | .maybe | .stub | .external | .badTarget =>
      .client
  | _ => .builtin

/-- The full description of a type, with the module that defines it. -/
def classText (type : TypeName) : String :=
  let qualifier :=
    match type.home with
    | .builtin => ""
    | .package => "dosugar.capture."
    | .client => "__main__."
  "<class '" ++ qualifier ++ type.text ++ "'>"

end TypeName

end Bindery
