import Bindery.Proofs.Frame

set_option autoImplicit false

namespace Bindery

namespace Action

variable {F σ α β : Type}

/-- Two actions, each from its own state, both end with results that are so related or both with
errors that are so related. -/
def Together (first second : Action F σ α) (one two : World F σ)
    (results : α → World F σ → α → World F σ → Prop)
    (failures : Error → World F σ → Error → World F σ → Prop) : Prop :=
  match first.outcome one, second.outcome two with
  | (.ok value, after), (.ok other, last) => results value after other last
  | (.error error, after), (.error other, last) => failures error after other last
  | _, _ => False

variable {one two : World F σ} {results : α → World F σ → α → World F σ → Prop}
  {failures : Error → World F σ → Error → World F σ → Prop}

theorem Together.exists_ends {first second : Action F σ α}
    (together : Together first second one two results failures) :
    (∃ value after other last, first.outcome one = (.ok value, after) ∧
      second.outcome two = (.ok other, last) ∧ results value after other last) ∨
    ∃ error after other last, first.outcome one = (.error error, after) ∧
      second.outcome two = (.error other, last) ∧ failures error after other last := by
  unfold Together at together
  rcases ended : first.outcome one with ⟨error | value, after⟩ <;>
    rcases endedSecond : second.outcome two with ⟨otherError | other, last⟩ <;>
    rw [ended, endedSecond] at together
  · exact Or.inr ⟨error, after, otherError, last, rfl, rfl, together⟩
  · exact together.elim
  · exact together.elim
  · exact Or.inl ⟨value, after, other, last, rfl, rfl, together⟩

theorem together_of_ok {first second : Action F σ α} {value other : α} {after last : World F σ}
    (ended : first.outcome one = (.ok value, after))
    (endedSecond : second.outcome two = (.ok other, last))
    (related : results value after other last) :
    Together first second one two results failures := by
  unfold Together
  rw [ended, endedSecond]
  exact related

theorem together_of_error {first second : Action F σ α} {error other : Error}
    {after last : World F σ} (ended : first.outcome one = (.error error, after))
    (endedSecond : second.outcome two = (.error other, last))
    (related : failures error after other last) :
    Together first second one two results failures := by
  unfold Together
  rw [ended, endedSecond]
  exact related

theorem Together.of_outcome_eq {first second other otherSecond : Action F σ α}
    {after last : World F σ} (together : Together other otherSecond after last results failures)
    (same : first.outcome one = other.outcome after)
    (sameSecond : second.outcome two = otherSecond.outcome last) :
    Together first second one two results failures := by
  unfold Together at together ⊢
  rw [same, sameSecond]
  exact together

theorem Together.mono {stronger : α → World F σ → α → World F σ → Prop}
    {earlier : Error → World F σ → Error → World F σ → Prop} {first second : Action F σ α}
    (together : Together first second one two stronger earlier)
    (weaken : ∀ value after other last, stronger value after other last →
      results value after other last)
    (weakenFailures : ∀ error after other last, earlier error after other last →
      failures error after other last) :
    Together first second one two results failures := by
  rcases together.exists_ends with
    ⟨value, after, other, last, ended, endedSecond, related⟩ |
    ⟨error, after, other, last, ended, endedSecond, related⟩
  · exact together_of_ok ended endedSecond (weaken _ _ _ _ related)
  · exact together_of_error ended endedSecond (weakenFailures _ _ _ _ related)

theorem Together.bind {first second : Action F σ α} {next nextSecond : α → Action F σ β}
    {results : β → World F σ → β → World F σ → Prop}
    (together : Together first second one two
      (fun value after other last =>
        Together (next value) (nextSecond other) after last results failures) failures) :
    Together (first >>= next) (second >>= nextSecond) one two results failures := by
  rcases together.exists_ends with
    ⟨value, after, other, last, ended, endedSecond, later⟩ |
    ⟨error, after, other, last, ended, endedSecond, failed⟩
  · refine later.of_outcome_eq ?_ ?_
    · rw [outcome_bind, ended]
    · rw [outcome_bind, endedSecond]
  · refine together_of_error ?_ ?_ failed
    · rw [outcome_bind, ended]
    · rw [outcome_bind, endedSecond]

theorem Together.of_ends {action : Action F σ α} {result : α → World F σ → Prop}
    {failure : Error → World F σ → Prop} (ends : action.Ends one result failure)
    (agree : ∀ value after, result value after → results value after value after)
    (agreeFailures : ∀ error after, failure error after → failures error after error after) :
    Together action action one one results failures := by
  unfold Ends at ends
  rcases reached : action.outcome one with ⟨error | value, after⟩ <;> rw [reached] at ends
  · exact together_of_error reached reached (agreeFailures error after ends)
  · exact together_of_ok reached reached (agree value after ends)

end Action

end Bindery
