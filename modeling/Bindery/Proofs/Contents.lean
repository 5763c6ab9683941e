import Bindery.Proofs.Fitting
import Bindery.Proofs.Frame

set_option autoImplicit false

namespace Bindery

open Bindery.Action

/-- A place that a target writes to. -/
inductive Cell where
  | slot (key : String)
  | sequence (key : String)
  | external (key : String)
  deriving DecidableEq

abbrev Contents (F : Type) := List (Cell × Value F)

variable {F σ : Type}

namespace World

/-- What a cell holds: the value of a slot, or the list of the items of a sequence or of what an
external target was sent. -/
def content (world : World F σ) : Cell → Value F
  | .slot key => world.slot key
  | .sequence key => .list (world.sequence key)
  | .external key => .list (world.receivedBy key)

/-- The cells hold these contents. -/
def Holds (world : World F σ) (contents : Contents F) : Prop :=
  ∀ entry ∈ contents, world.content entry.1 = entry.2

theorem content_setSlot_of_ne (world : World F σ) (key : String) (value : Value F) {cell : Cell}
    (other : cell ≠ .slot key) : (world.setSlot key value).content cell = world.content cell := by
  cases cell with
  | slot name =>
      have different : name ≠ key := fun same => other (congrArg Cell.slot same)
      exact (world.slot_setSlot key name value).trans (if_neg different)
  | sequence name => rfl
  | external name => rfl

theorem content_setSequence_of_ne (world : World F σ) (key : String) (items : List (Value F))
    {cell : Cell} (other : cell ≠ .sequence key) :
    (world.setSequence key items).content cell = world.content cell := by
  cases cell with
  | slot name => rfl
  | sequence name =>
      have different : name ≠ key := fun same => other (congrArg Cell.sequence same)
      exact congrArg Value.list ((world.sequence_setSequence key name items).trans
        (if_neg different))
  | external name => rfl

theorem content_receive_of_ne (world : World F σ) (key : String) (value : Value F) {cell : Cell}
    (other : cell ≠ .external key) :
    (world.receive key value).content cell = world.content cell := by
  cases cell with
  | slot name => rfl
  | sequence name => rfl
  | external name =>
      have different : name ≠ key := fun same => other (congrArg Cell.external same)
      exact congrArg Value.list ((world.receivedBy_receive key name value).trans
        (if_neg different))

end World

namespace Target

mutual

/-- The cells that a target writes to, in order. -/
def cells : Target → List Cell
  | .slot key _ => [.slot key]
  | .sequence key _ => [.sequence key]
  | .external key _ _ => [.external key]
  | .tuple parts => allCells parts
  | _ => []

def allCells : List Target → List Cell
  | [] => []
  | part :: parts => cells part ++ allCells parts

end

end Target

theorem holds_ignoresSupplies (contents : Contents F) :
    IgnoresSupplies fun world : World F σ => world.Holds contents := by
  intro world supplies holds entry member
  rw [← holds entry member]
  cases entry.1 <;> rfl

mutual

/-- A deposit leaves all cells alone that are not its target's, even if it fails half way. -/
theorem deposit_preserves_holds {contents : Contents F} : ∀ (target : Target) (value : Value F),
    (∀ entry ∈ contents, entry.1 ∉ target.cells) →
      Preserves (fun world : World F σ => world.Holds contents) (deposit target value)
  | .discard, _, _ => by
      simp only [deposit]
      exact preserves_pure _
  | .slot key _, value, apart => by
      rw [deposit]
      refine preserves_modify fun world holds entry member => ?_
      have other : entry.1 ≠ .slot key := by simpa [Target.cells] using apart entry member
      exact (world.content_setSlot_of_ne key value other).trans (holds entry member)
  | .sequence key _, value, apart => by
      rw [deposit]
      refine (sequenceItems_preserves (holds_ignoresSupplies contents) value).bind fun items =>
        preserves_modify fun world holds entry member => ?_
      have other : entry.1 ≠ .sequence key := by simpa [Target.cells] using apart entry member
      exact (world.content_setSequence_of_ne key items other).trans (holds entry member)
  | .external key _ hook, value, apart => by
      have recorded : ∀ event, Preserves (fun world : World F σ => world.Holds contents)
          (record event) := by
        intro event
        refine preserves_modify fun world holds entry member => ?_
        rw [← holds entry member]
        cases entry.1 <;> rfl
      rw [deposit]
      cases hook value.typeName value.likeness with
      | some message =>
          exact preserves_get.bind fun world => (recorded _).bind fun _ => preserves_throw _
      | none =>
          refine preserves_get.bind fun world => (recorded _).bind fun _ =>
            preserves_modify fun reached holds entry member => ?_
          have other : entry.1 ≠ .external key := by simpa [Target.cells] using apart entry member
          exact (reached.content_receive_of_ne key value other).trans (holds entry member)
  | .tuple parts, value, apart => by
      cases value with
      | bundle components =>
          rw [deposit]
          exact (depositAll_preserves_holds parts components apart).ite (preserves_throw _)
      | _ =>
          simp only [deposit]
          exact preserves_throw _
  | .unusable _ _, _, _ => by
      rw [deposit]
      exact preserves_throw _

theorem depositAll_preserves_holds {contents : Contents F} :
    ∀ (parts : List Target) (components : List (Value F)),
      (∀ entry ∈ contents, entry.1 ∉ Target.allCells parts) →
        Preserves (fun world : World F σ => world.Holds contents) (depositAll parts components)
  | part :: parts, component :: components, apart => by
      have first : ∀ entry ∈ contents, entry.1 ∉ part.cells := by
        intro entry member inside
        exact apart entry member (List.mem_append_left _ inside)
      have others : ∀ entry ∈ contents, entry.1 ∉ Target.allCells parts := by
        intro entry member inside
        exact apart entry member (List.mem_append_right _ inside)
      rw [depositAll]
      exact (deposit_preserves_holds part component first).bind fun _ =>
        depositAll_preserves_holds parts components others
  | [], _, _ => by
      rw [depositAll]
      · exact preserves_pure _
      · simp
  | _ :: _, [], _ => by
      rw [depositAll]
      · exact preserves_pure _
      · simp

end

/-- The items of a value that is held as a sequence, unless it is an iterator. -/
def Value.heldItems? : Value F → Option (List (Value F))
  | .list items => some items
  | .tuple items => some items
  | .bundle components => some components
  | .dictionary entries => some (entries.map (·.1))
  | .buffer content => some (content.map fun octet => .int octet.toNat)
  | .iterator _ => none
  | value => some [value]

theorem sequenceItems_of_heldItems {value : Value F} {items : List (Value F)}
    (held : value.heldItems? = some items) :
    (sequenceItems value : Action F σ (List (Value F))) = pure items := by
  cases value with
  | iterator number => cases held
  | _ =>
      cases held
      rfl

namespace Target

mutual

/-- What a deposit of a value leaves in the cells of a target, where the target is made of slots,
sequences and parts that discard, the value fits it, and no sequence is sent an iterator. -/
def captures? : Target → Value F → Option (Contents F)
  | .discard, _ => some []
  | .slot key _, value => some [(.slot key, value)]
  | .sequence key _, value => value.heldItems?.map fun items => [(.sequence key, .list items)]
  | .tuple parts, .bundle components => capturesAll? parts components
  | _, _ => none

def capturesAll? : List Target → List (Value F) → Option (Contents F)
  | [], [] => some []
  | part :: parts, component :: components => do
      let first ← captures? part component
      let rest ← capturesAll? parts components
      return first ++ rest
  | _, _ => none

end

theorem captures_tuple_eq_some {parts : List Target} {value : Value F} {contents : Contents F}
    (captured : captures? (.tuple parts) value = some contents) :
    ∃ components, value = .bundle components ∧ capturesAll? parts components = some contents := by
  cases value with
  | bundle components => exact ⟨components, rfl, captured⟩
  | _ => simp [captures?] at captured

theorem capturesAll_cons_eq_some {part : Target} {parts : List Target} {component : Value F}
    {components : List (Value F)} {contents : Contents F}
    (captured : capturesAll? (part :: parts) (component :: components) = some contents) :
    ∃ first rest, captures? part component = some first ∧
      capturesAll? parts components = some rest ∧ contents = first ++ rest := by
  simp only [capturesAll?, Option.bind_eq_bind, Option.bind_eq_some_iff] at captured
  obtain ⟨first, capturedFirst, rest, capturedRest, same⟩ := captured
  exact ⟨first, rest, capturedFirst, capturedRest, (Option.some.inj same).symm⟩

theorem captures_pair {first second : Target} {left right : Value F} {bound more : Contents F}
    (captured : first.captures? left = some bound) (added : second.captures? right = some more) :
    captures? (.tuple [first, second]) (.bundle [left, right]) = some (bound ++ more) := by
  simp [captures?, capturesAll?, captured, added]

theorem length_of_capturesAll : ∀ {parts : List Target} {components : List (Value F)}
    {contents : Contents F}, capturesAll? parts components = some contents →
      components.length = parts.length
  | [], [], _, _ => rfl
  | part :: parts, component :: components, contents, captured => by
      obtain ⟨first, rest, -, others, -⟩ := capturesAll_cons_eq_some captured
      rw [List.length_cons, List.length_cons, length_of_capturesAll others]
  | [], _ :: _, _, captured => by simp [capturesAll?] at captured
  | _ :: _, [], _, captured => by simp [capturesAll?] at captured

mutual

theorem cells_of_captures : ∀ {target : Target} {value : Value F} {contents : Contents F},
    target.captures? value = some contents → contents.map (·.1) = target.cells
  | .discard, _, _, captured => by
      cases captured
      rfl
  | .slot _ _, _, _, captured => by
      cases captured
      rfl
  | .sequence _ _, _, _, captured => by
      obtain ⟨items, -, rfl⟩ := Option.map_eq_some_iff.mp captured
      rfl
  | .tuple parts, _, _, captured => by
      obtain ⟨components, rfl, all⟩ := captures_tuple_eq_some captured
      exact cells_of_capturesAll all
  | .external _ _ _, _, _, captured => by simp [captures?] at captured
  | .unusable _ _, _, _, captured => by simp [captures?] at captured

theorem cells_of_capturesAll : ∀ {parts : List Target} {components : List (Value F)}
    {contents : Contents F}, capturesAll? parts components = some contents →
      contents.map (·.1) = allCells parts
  | [], [], _, captured => by
      cases captured
      rfl
  | part :: parts, component :: components, _, captured => by
      obtain ⟨first, rest, capturedFirst, capturedRest, rfl⟩ := capturesAll_cons_eq_some captured
      rw [List.map_append, allCells, cells_of_captures capturedFirst,
        cells_of_capturesAll capturedRest]
  | [], _ :: _, _, captured => by simp [capturesAll?] at captured
  | _ :: _, [], _, captured => by simp [capturesAll?] at captured

end

end Target

mutual

/-- What is captured is what the cells hold after the deposit. -/
theorem ends_deposit_of_captures : ∀ {target : Target} {value : Value F} {contents : Contents F},
    target.captures? value = some contents → target.cells.Nodup → ∀ world : World F σ,
      (deposit target value).Ends world (fun _ after => after.Holds contents) fun _ _ => False
  | .discard, _, _, captured, _, world => by
      cases captured
      exact fun _ absent => nomatch absent
  | .slot key _, value, _, captured, _, world => by
      cases captured
      rw [deposit, ends_modify]
      intro entry member
      rw [List.mem_singleton.mp member]
      exact (world.slot_setSlot key key value).trans (if_pos rfl)
  | .sequence key _, value, _, captured, _, world => by
      obtain ⟨items, held, rfl⟩ := Option.map_eq_some_iff.mp captured
      rw [deposit, sequenceItems_of_heldItems held, pure_bind, ends_modify]
      intro entry member
      rw [List.mem_singleton.mp member]
      exact congrArg Value.list ((world.sequence_setSequence key key items).trans (if_pos rfl))
  | .tuple parts, _, _, captured, different, world => by
      obtain ⟨components, rfl, all⟩ := Target.captures_tuple_eq_some captured
      rw [deposit, if_pos (Target.length_of_capturesAll all)]
      exact ends_depositAll_of_captures all different world
  | .external _ _ _, _, _, captured, _, _ => by simp [Target.captures?] at captured
  | .unusable _ _, _, _, captured, _, _ => by simp [Target.captures?] at captured

theorem ends_depositAll_of_captures : ∀ {parts : List Target} {components : List (Value F)}
    {contents : Contents F}, Target.capturesAll? parts components = some contents →
      (Target.allCells parts).Nodup → ∀ world : World F σ,
        (depositAll parts components).Ends world (fun _ after => after.Holds contents)
          fun _ _ => False
  | [], [], _, captured, _, world => by
      cases captured
      exact fun _ absent => nomatch absent
  | part :: parts, component :: components, _, captured, different, world => by
      obtain ⟨first, rest, capturedFirst, capturedRest, rfl⟩ :=
        Target.capturesAll_cons_eq_some captured
      rw [Target.allCells, List.nodup_append] at different
      obtain ⟨inside, others, apart⟩ := different
      rw [depositAll, ends_bind]
      refine (ends_deposit_of_captures capturedFirst inside world).imp ?_
      intro _ reached held
      have later := ends_depositAll_of_captures capturedRest others reached
      have elsewhere : ∀ entry ∈ first, entry.1 ∉ Target.allCells parts := by
        intro entry member inside
        have own : entry.1 ∈ part.cells := by
          rw [← Target.cells_of_captures capturedFirst]
          exact List.mem_map_of_mem member
        exact apart entry.1 own entry.1 inside rfl
      have kept := depositAll_preserves_holds parts components elsewhere reached held
      refine (later.and kept).mono ?_ fun _ _ failed => failed.1
      intro _ after both entry member
      rcases List.mem_append.mp member with bound | more
      · exact both.2 entry bound
      · exact both.1 entry more
  | [], _ :: _, _, captured, _, _ => by simp [Target.capturesAll?] at captured
  | _ :: _, [], _, captured, _, _ => by simp [Target.capturesAll?] at captured

end

mutual

/-- Settling needs no look at the state, and does not change what is captured. -/
theorem exists_settle_of_captures : ∀ {target : Target} {value : Value F} {contents : Contents F},
    target.captures? value = some contents → ∃ settled,
      (settle target value : Action F σ (Value F)) = pure settled ∧
        target.captures? settled = some contents
  | .discard, value, _, captured | .slot _ _, value, _, captured =>
      ⟨value, by simp only [settle], captured⟩
  | .sequence key name, value, _, captured => by
      obtain ⟨items, held, rfl⟩ := Option.map_eq_some_iff.mp captured
      refine ⟨.list items, ?_, rfl⟩
      rw [settle, sequenceItems_of_heldItems held, pure_bind]
  | .tuple parts, _, _, captured => by
      obtain ⟨components, rfl, all⟩ := Target.captures_tuple_eq_some captured
      obtain ⟨settled, each, still⟩ := exists_settleAll_of_captures all
      refine ⟨.bundle settled, ?_, still⟩
      rw [settle, if_pos (Target.length_of_capturesAll all), each, pure_bind]
  | .external _ _ _, _, _, captured => by simp [Target.captures?] at captured
  | .unusable _ _, _, _, captured => by simp [Target.captures?] at captured

theorem exists_settleAll_of_captures : ∀ {parts : List Target} {components : List (Value F)}
    {contents : Contents F}, Target.capturesAll? parts components = some contents →
      ∃ settled, (settleAll parts components : Action F σ (List (Value F))) = pure settled ∧
        Target.capturesAll? parts settled = some contents
  | [], [], _, captured => ⟨[], rfl, captured⟩
  | part :: parts, component :: components, _, captured => by
      obtain ⟨first, rest, capturedFirst, capturedRest, rfl⟩ :=
        Target.capturesAll_cons_eq_some captured
      obtain ⟨one, settledOne, stillOne⟩ := exists_settle_of_captures capturedFirst
      obtain ⟨others, settledOthers, stillOthers⟩ := exists_settleAll_of_captures capturedRest
      refine ⟨one :: others, ?_, ?_⟩
      · rw [settleAll, settledOne, settledOthers, pure_bind, pure_bind]
      · simp [Target.capturesAll?, stillOne, stillOthers]
  | [], _ :: _, _, captured => by simp [Target.capturesAll?] at captured
  | _ :: _, [], _, captured => by simp [Target.capturesAll?] at captured

end

end Bindery
