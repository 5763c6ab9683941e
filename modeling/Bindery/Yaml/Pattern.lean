set_option autoImplicit false

namespace Bindery.Yaml

inductive Pattern where
  | never
  | done
  | char (accepts : Char → Bool)
  | sequence (first second : Pattern)
  | either (left right : Pattern)
  | many (repeated : Pattern)

namespace Pattern

def nullable : Pattern → Bool
  | .never => false
  | .done => true
  | .char _ => false
  | .sequence first second => first.nullable && second.nullable
  | .either left right => left.nullable || right.nullable
  | .many _ => true

/-- One pattern after another, without parts that cannot matter. -/
def andThen : Pattern → Pattern → Pattern
  | .never, _ => .never
  | .done, second => second
  | first, second => .sequence first second

/-- One pattern or another, without parts that cannot matter. -/
def orElse : Pattern → Pattern → Pattern
  | .never, right => right
  | left, .never => left
  | left, right => .either left right

def derivative (c : Char) : Pattern → Pattern
  | .never => .never
  | .done => .never
  | .char accepts => if accepts c then .done else .never
  | .sequence first second =>
      let rest := (derivative c first).andThen second
      if first.nullable then rest.orElse (derivative c second) else rest
  | .either left right => (derivative c left).orElse (derivative c right)
  | .many repeated => (derivative c repeated).andThen (.many repeated)

def accepts (pattern : Pattern) : List Char → Bool
  | [] => pattern.nullable
  | c :: rest => (pattern.derivative c).accepts rest

def oneOf (chars : List Char) : Pattern := .char (chars.contains ·)

def range (low high : Char) : Pattern := .char fun c => low ≤ c && c ≤ high

def literal (text : String) : Pattern :=
  text.toList.foldr (fun c rest => .sequence (oneOf [c]) rest) .done

def optional (pattern : Pattern) : Pattern := .either pattern .done

def some (pattern : Pattern) : Pattern := .sequence pattern (.many pattern)

def all (patterns : List Pattern) : Pattern := patterns.foldr .sequence .done

def any (patterns : List Pattern) : Pattern := patterns.foldr .either .never

end Pattern

end Bindery.Yaml
