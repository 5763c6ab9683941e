import Bindery.Json.Text
import Bindery.Likeness
import Bindery.TypeName

set_option autoImplicit false

namespace Bindery

/-- The message of the error with which an external target refuses a value of a given type and
likeness, if it does. -/
abbrev Hook := TypeName → Likeness → Option String

/-- A capture target. A tuple sends the components of a bundle to its parts, place by place. An
unusable target is an object that cannot take values; its likeness decides what it equals. -/
inductive Target where
  | discard
  | slot (key : String) (name : Option Text)
  | sequence (key : String) (name : Option Text)
  | external (key : String) (name : Option Text) (hook : Hook)
  | tuple (parts : List Target)
  | unusable (type : TypeName) (likeness : Likeness)
  deriving Inhabited

namespace Target

/-- The classes of target that reports tell apart. -/
inductive Kind where
  | discard
  | single
  | sequence
  | tuple
  | external
  deriving DecidableEq

def Kind.text : Kind → String
  | .discard => "discard"
  | .single => "single"
  | .sequence => "sequence"
  | .tuple => "tuple"
  | .external => "external"

/-- The class of a target. An object that takes no values counts as external. -/
def kind : Target → Kind
  | .discard => .discard
  | .slot _ _ => .single
  | .sequence _ _ => .sequence
  | .tuple _ => .tuple
  | .external _ _ _ => .external
  | .unusable _ _ => .external

def typeName : Target → TypeName
  | .discard => .null
  | .slot _ _ => .slot
  | .sequence _ _ => .sequence
  | .external _ _ _ => .external
  | .tuple _ => .tupleTarget
  | .unusable type _ => type

def accepts : Target → Bool
  | .unusable _ _ => false
  | _ => true

def labelOr (name : Option Text) (type : TypeName) : Json :=
  .string (name.getD (.plain type.text))

mutual

/-- The label of a target in reports: a tuple is labelled by the labels of its parts. -/
def label : Target → Json
  | .discard => .null
  | .slot _ name => labelOr name .slot
  | .sequence _ name => labelOr name .sequence
  | .external _ name _ => labelOr name .external
  | .tuple parts => .arr (labels parts)
  | .unusable type _ => labelOr none type

def labels : List Target → List Json
  | [] => []
  | part :: rest => label part :: labels rest

end

theorem labels_eq_map (parts : List Target) : labels parts = parts.map label := by
  induction parts with
  | nil => rfl
  | cons part rest ih => simp only [labels, ih, List.map_cons]

mutual

def hasSequence : Target → Bool
  | .sequence _ _ => true
  | .tuple parts => anyHasSequence parts
  | _ => false

def anyHasSequence : List Target → Bool
  | [] => false
  | part :: rest => hasSequence part || anyHasSequence rest

end

theorem anyHasSequence_eq_any (parts : List Target) :
    anyHasSequence parts = parts.any hasSequence := by
  induction parts with
  | nil => rfl
  | cons part rest ih => simp only [anyHasSequence, ih, List.any_cons]

mutual

/-- Whether two targets are one, or equal: tuples part by part, declared targets when they are one
target, and unusable objects by their likeness. -/
def same : Target → Target → Bool
  | .discard, .discard => true
  | .slot left _, .slot right _ => left == right
  | .sequence left _, .sequence right _ => left == right
  | .external left _ _, .external right _ _ => left == right
  | .tuple left, .tuple right => sameParts left right
  | .unusable _ left, .unusable _ right => left.same right
  | _, _ => false

def sameParts : List Target → List Target → Bool
  | [], [] => true
  | left :: moreLeft, right :: moreRight => same left right && sameParts moreLeft moreRight
  | _, _ => false

end

/-- Whether two targets are equal when they are compared outright. -/
def equals : Target → Target → Bool
  | .unusable _ left, .unusable _ right => left.equals right
  | left, right => left.same right

end Target

end Bindery
