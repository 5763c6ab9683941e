import Bindery.Number.Binary64
import Bindery.Text

set_option autoImplicit false

namespace Bindery

/-- What decides the equality of a value. Truth values count as whole numbers, and so do doubles
without a fraction; both kinds of octet string and both kinds of tuple have one form. -/
inductive Likeness where
  | null
  | unbound
  | whole (value : Int)
  | fraction (value : Binary64)
  | nan (payload : Nat)
  | text (content : Text)
  | octets (content : List UInt8)
  | list (items : List Likeness)
  | tuple (items : List Likeness)
  | dictionary (entries : List (Likeness × Likeness))
  | iterator (number : Nat)
  | object (number : Option Nat)
  deriving Inhabited

namespace Likeness

/-- The likeness of a double. Both zeros are one number. -/
def ofDouble : Binary64 → Likeness
  | .nan payload => .nan payload
  | .infinite negative => .fraction (.infinite negative)
  | .finite negative mantissa exponent =>
      let (up, down) := Binary64.magnitude mantissa exponent
      let quotient : Int := (up / down : Nat)
      if up % down = 0 then .whole (if negative then -quotient else quotient)
      else .fraction (.finite negative mantissa exponent)

mutual

/-- Whether two values are one, or equal by content. -/
def same : Likeness → Likeness → Bool
  | .null, .null => true
  | .unbound, .unbound => true
  | .whole left, .whole right => left == right
  | .fraction left, .fraction right => left == right
  | .nan left, .nan right => left == right
  | .text left, .text right => left == right
  | .octets left, .octets right => left == right
  | .list left, .list right => sameItems left right
  | .tuple left, .tuple right => sameItems left right
  | .dictionary left, .dictionary right => left.length == right.length && within left right
  | .iterator left, .iterator right => left == right
  | .object left, .object right => left == right
  | _, _ => false

def sameItems : List Likeness → List Likeness → Bool
  | [], [] => true
  | left :: moreLeft, right :: moreRight => same left right && sameItems moreLeft moreRight
  | _, _ => false

def within : List (Likeness × Likeness) → List (Likeness × Likeness) → Bool
  | [], _ => true
  | (key, content) :: rest, entries =>
      (entries.any fun entry => same key entry.1 && same content entry.2) && within rest entries

end

/-- Whether two values are equal when they are compared outright. -/
def equals : Likeness → Likeness → Bool
  | .nan _, .nan _ => false
  | left, right => left.same right

mutual

theorem same_self (likeness : Likeness) : likeness.same likeness = true :=
  match likeness with
  | .null | .unbound => by simp only [same]
  | .whole _ | .fraction _ | .nan _ | .text _ | .octets _ | .iterator _ | .object _ => by
      simp only [same, beq_self_eq_true]
  | .list items | .tuple items => by simp only [same, sameItems_self items]
  | .dictionary entries => by
      simp only [same, beq_self_eq_true, Bool.true_and]
      exact within_of_subset entries entries fun _ listed => listed

theorem sameItems_self (items : List Likeness) : sameItems items items = true :=
  match items with
  | [] => by simp only [sameItems]
  | item :: rest => by simp only [sameItems, same_self item, sameItems_self rest, Bool.and_self]

theorem within_of_subset (part entries : List (Likeness × Likeness))
    (listed : ∀ entry ∈ part, entry ∈ entries) : within part entries = true :=
  match part with
  | [] => by simp only [within]
  | (key, content) :: rest => by
      simp only [within, Bool.and_eq_true, List.any_eq_true]
      refine ⟨⟨(key, content), listed _ (List.mem_cons_self ..), same_self key,
        same_self content⟩, ?_⟩
      exact within_of_subset rest entries fun entry later =>
        listed entry (List.mem_cons_of_mem _ later)

end

end Likeness

end Bindery
