import Bindery.Proofs.Tokens
import Bindery.Yaml.Resolution

set_option autoImplicit false

namespace Bindery.Yaml

namespace Pattern

/-- A text can be taken apart along a pattern. -/
inductive Matches : Pattern → List Char → Prop
  | done : Matches .done []
  | char {accepts : Char → Bool} {c : Char} (accepted : accepts c = true) :
      Matches (.char accepts) [c]
  | sequence {first second : Pattern} {front back : List Char} (here : Matches first front)
      (later : Matches second back) : Matches (.sequence first second) (front ++ back)
  | left {one other : Pattern} {text : List Char} (here : Matches one text) :
      Matches (.either one other) text
  | right {one other : Pattern} {text : List Char} (here : Matches other text) :
      Matches (.either one other) text
  | finished {repeated : Pattern} : Matches (.many repeated) []
  | again {repeated : Pattern} {front back : List Char} (here : Matches repeated front)
      (later : Matches (.many repeated) back) : Matches (.many repeated) (front ++ back)

variable {pattern first second : Pattern} {front back text : List Char}

theorem Matches.nullable (matched : pattern.Matches []) : pattern.nullable = true := by
  generalize empty : ([] : List Char) = text at matched
  induction matched with
  | done | finished => rfl
  | char accepted => cases empty
  | sequence here later first second =>
      obtain ⟨front, back⟩ := List.append_eq_nil_iff.mp empty.symm
      rw [Pattern.nullable, first front.symm, second back.symm]
      rfl
  | left here ih => rw [Pattern.nullable, ih empty, Bool.true_or]
  | right here ih => rw [Pattern.nullable, ih empty, Bool.or_true]
  | again here later first second => rfl

theorem Matches.andThen (here : first.Matches front) (later : second.Matches back) :
    (first.andThen second).Matches (front ++ back) := by
  cases here with
  | done => exact later
  | char accepted => exact .sequence (.char accepted) later
  | sequence here rest => exact .sequence (.sequence here rest) later
  | left here => exact .sequence (.left here) later
  | right here => exact .sequence (.right here) later
  | finished => exact .sequence .finished later
  | again here rest => exact .sequence (.again here rest) later

theorem Matches.orElse_left (here : first.Matches text) : (first.orElse second).Matches text := by
  unfold Pattern.orElse
  split
  · cases here
  · exact here
  · exact .left here

theorem Matches.orElse_right (here : second.Matches text) :
    (first.orElse second).Matches text := by
  unfold Pattern.orElse
  split
  · exact here
  · cases here
  · exact .right here

theorem Matches.derivative {c : Char} {rest : List Char} (matched : pattern.Matches (c :: rest)) :
    (pattern.derivative c).Matches rest := by
  generalize whole : c :: rest = text at matched
  induction matched generalizing rest with
  | done | finished => cases whole
  | char accepted =>
      obtain ⟨rfl, rfl⟩ := List.cons.inj whole
      rw [Pattern.derivative, if_pos accepted]
      exact .done
  | @sequence first second front back here later ihFirst ihSecond =>
      rw [Pattern.derivative]
      cases front with
      | nil =>
          rw [if_pos here.nullable]
          exact .orElse_right (ihSecond whole)
      | cons d front =>
          obtain ⟨rfl, rfl⟩ := List.cons.inj whole
          have taken := (ihFirst rfl).andThen later
          split
          · exact taken.orElse_left
          · exact taken
  | left here ih => exact (ih whole).orElse_left
  | right here ih => exact (ih whole).orElse_right
  | @again repeated front back here later ihFirst ihSecond =>
      cases front with
      | nil => exact ihSecond whole
      | cons d front =>
          obtain ⟨rfl, rfl⟩ := List.cons.inj whole
          exact (ihFirst rfl).andThen later

theorem Matches.accepts (matched : pattern.Matches text) : pattern.accepts text = true := by
  induction text generalizing pattern with
  | nil => exact matched.nullable
  | cons c rest ih => exact ih matched.derivative

theorem Matches.any {patterns : List Pattern} (member : pattern ∈ patterns)
    (here : pattern.Matches text) : (Pattern.any patterns).Matches text := by
  induction patterns with
  | nil => cases member
  | cons head rest ih =>
      rcases List.mem_cons.mp member with rfl | later
      · exact .left here
      · exact .right (ih later)

theorem matches_many (each : ∀ c ∈ text, pattern.Matches [c]) : (many pattern).Matches text := by
  induction text with
  | nil => exact .finished
  | cons c rest ih =>
      rw [List.forall_mem_cons] at each
      exact .again each.1 (ih each.2)

end Pattern

open Pattern Digits

/-- A numeral without a sign is zero, or it starts with a digit that is not zero. -/
theorem matches_toDigits (value : Nat) :
    (literal "0").Matches (Nat.toDigits 10 value) ∨
      (Pattern.sequence (range '1' '9') (.many Resolution.grouped)).Matches
        (Nat.toDigits 10 value) := by
  cases value with
  | zero => exact Or.inl (.sequence (.char rfl) .done)
  | succ value =>
      have digits := Json.isDigit_toDigits (value + 1)
      have positive := head?_toDigits (value + 1) (Nat.succ_pos value)
      obtain ⟨first, rest, written, -⟩ := Json.exists_toDigits_eq_cons (value + 1)
      rw [written] at digits positive ⊢
      simp only [List.forall_mem_cons, Json.isDigit, Bool.and_eq_true, decide_eq_true_eq] at digits
      have nonzero : first ≠ '0' := by simpa using positive
      have least : '1' ≤ first := by
        have low : (48 : Nat) ≤ first.toNat := digits.1.1
        have differs : first.toNat ≠ 48 := fun same => nonzero (Char.toNat_inj.mp same)
        have above : (49 : Nat) ≤ first.toNat := by omega
        exact above
      refine Or.inr (.sequence (.char ?_) (matches_many ?_))
      · simpa using ⟨least, digits.1.2⟩
      · intro c member
        exact .left (.char (by simpa using digits.2 c member))

theorem accepts_intDigits (value : Int) :
    Resolution.integer.accepts (intDigits value) = true := by
  have signed : ∀ (sign : List Char) (magnitude : Nat), Resolution.sign.Matches sign →
      Resolution.integer.Matches (sign ++ Nat.toDigits 10 magnitude) := by
    intro sign magnitude signed
    rw [← List.append_nil (Nat.toDigits 10 magnitude)]
    refine .sequence signed (.sequence ?_ .done)
    rcases matches_toDigits magnitude with zero | positive
    · exact .any (by simp) zero
    · exact .any (by simp) positive
  cases value with
  | ofNat magnitude => exact (signed [] magnitude (.right .done)).accepts
  | negSucc magnitude => exact (signed ['-'] (magnitude + 1) (.left (.char rfl))).accepts

theorem readsAsText_intDigits (value : Int) : readsAsText (intDigits value) = false := by
  simp [readsAsText, accepts_intDigits]

end Bindery.Yaml
