import Bindery.Proofs.FanOut
import Bindery.Proofs.Iterators
import Mathlib.Logic.Function.Iterate

set_option autoImplicit false

namespace Bindery

open Bindery.Action

variable {F σ : Type}

namespace Arrival

/-- Nothing is left to take from an iterator: what arrives at a sequence is a list. -/
def Settled : Arrival F → Prop
  | ⟨.sequence _ _, value⟩ => ∃ items, value = .list items
  | _ => True

/-- An iterator that arrives at a sequence gives its items without an error. -/
def Quiet (supplies : List (Supply F)) : Arrival F → Prop
  | ⟨.sequence key name, value⟩ => refusal? supplies ⟨.sequence key name, value⟩ = none
  | _ => True

/-- The arrival with the items that its value has as a sequence, if it is for one. -/
def settled (supplies : List (Supply F)) : Arrival F → Arrival F
  | ⟨.sequence key name, value⟩ => ⟨.sequence key name, .list (value.itemsIn supplies)⟩
  | arrival => arrival

/-- Settle arrivals, in order. Each finds the iterators as the earlier ones have left them. -/
def settleEach (supplies : List (Supply F)) : List (Arrival F) → List (Arrival F)
  | [] => []
  | arrival :: rest => arrival.settled supplies :: settleEach (arrival.drawn supplies) rest

theorem settleEach_append (supplies : List (Supply F)) (first second : List (Arrival F)) :
    settleEach supplies (first ++ second) =
      settleEach supplies first ++ settleEach (allDrawn supplies first) second := by
  induction first generalizing supplies with
  | nil => rfl
  | cons arrival rest ih => simp [settleEach, allDrawn, ih]

theorem settled_settled (supplies : List (Supply F)) (arrival : Arrival F) :
    (arrival.settled supplies).Settled := by
  obtain ⟨target, value⟩ := arrival
  cases target with
  | sequence key name => exact ⟨_, rfl⟩
  | _ => trivial

theorem writes_settled (supplies other : List (Supply F)) (arrival : Arrival F) :
    (arrival.settled supplies).writes other = arrival.writes supplies := by
  obtain ⟨target, value⟩ := arrival
  cases target <;> rfl

theorem sentTo?_settled (supplies : List (Supply F)) (key : String) (arrival : Arrival F) :
    (arrival.settled supplies).sentTo? key = arrival.sentTo? key := by
  obtain ⟨target, value⟩ := arrival
  cases target <;> rfl

theorem refusal?_settled {supplies : List (Supply F)} {arrival : Arrival F}
    (accepted : arrival.refusal? supplies = none) (other : List (Supply F)) :
    (arrival.settled supplies).refusal? other = none := by
  obtain ⟨target, value⟩ := arrival
  cases target with
  | sequence key name => rfl
  | tuple parts => cases value <;> exact accepted
  | _ => exact accepted

theorem quiet_drawn {supplies : List (Supply F)} {arrival : Arrival F}
    (quiet : arrival.Quiet supplies) (earlier : List (Arrival F)) :
    arrival.Quiet (allDrawn supplies earlier) := by
  obtain ⟨target, value⟩ := arrival
  cases target with
  | sequence key name => exact (refusal?_allDrawn supplies earlier _).trans quiet
  | _ => trivial

variable {arrival : Arrival F}

theorem Settled.drawn (settled : arrival.Settled) (supplies : List (Supply F)) :
    arrival.drawn supplies = supplies := by
  obtain ⟨target, value⟩ := arrival
  cases target with
  | sequence key name =>
      obtain ⟨items, same⟩ := settled
      rw [same]
      rfl
  | _ => rfl

theorem Settled.writes (settled : arrival.Settled) (supplies other : List (Supply F)) :
    arrival.writes supplies = arrival.writes other := by
  obtain ⟨target, value⟩ := arrival
  cases target with
  | sequence key name =>
      obtain ⟨items, same⟩ := settled
      rw [same]
      rfl
  | _ => rfl

theorem Settled.refusal? (settled : arrival.Settled) (supplies other : List (Supply F)) :
    arrival.refusal? supplies = arrival.refusal? other := by
  obtain ⟨target, value⟩ := arrival
  cases target with
  | sequence key name =>
      obtain ⟨items, same⟩ := settled
      rw [same]
      rfl
  | tuple parts => cases value <;> rfl
  | _ => rfl

variable {arrivals : List (Arrival F)}

theorem settled_of_mem_settleEach {supplies : List (Supply F)} :
    ∀ arrival ∈ settleEach supplies arrivals, arrival.Settled := by
  induction arrivals generalizing supplies with
  | nil => simp [settleEach]
  | cons first rest ih =>
      rw [settleEach, List.forall_mem_cons]
      exact ⟨settled_settled supplies first, ih⟩

theorem allDrawn_of_settled (settled : ∀ arrival ∈ arrivals, arrival.Settled)
    (supplies : List (Supply F)) : allDrawn supplies arrivals = supplies := by
  induction arrivals with
  | nil => rfl
  | cons arrival rest ih =>
      rw [List.forall_mem_cons] at settled
      rw [allDrawn, List.foldl_cons, settled.1.drawn supplies]
      exact ih settled.2

theorem allWrites_settleEach (supplies other : List (Supply F)) (arrivals : List (Arrival F)) :
    allWrites other (settleEach supplies arrivals) = allWrites supplies arrivals := by
  induction arrivals generalizing supplies with
  | nil => rfl
  | cons arrival rest ih =>
      rw [settleEach, allWrites, allWrites, writes_settled,
        (settled_settled supplies arrival).drawn, ih]

theorem filterMap_sentTo?_settleEach (supplies : List (Supply F)) (key : String)
    (arrivals : List (Arrival F)) :
    (settleEach supplies arrivals).filterMap (sentTo? key) =
      arrivals.filterMap (sentTo? key) := by
  induction arrivals generalizing supplies with
  | nil => rfl
  | cons arrival rest ih =>
      rw [settleEach, List.filterMap_cons, List.filterMap_cons, sentTo?_settled, ih]

theorem refusal?_settleEach {supplies : List (Supply F)}
    (accepted : ∀ arrival ∈ arrivals, arrival.refusal? supplies = none)
    (other : List (Supply F)) :
    ∀ arrival ∈ settleEach supplies arrivals, arrival.refusal? other = none := by
  induction arrivals generalizing supplies with
  | nil => simp [settleEach]
  | cons first rest ih =>
      rw [List.forall_mem_cons] at accepted
      rw [settleEach, List.forall_mem_cons]
      refine ⟨refusal?_settled accepted.1 other, ih ?_⟩
      intro arrival member
      rw [refusal?_drawn]
      exact accepted.2 arrival member

theorem lastWrite_external (key : String) (supplies : List (Supply F))
    (arrivals : List (Arrival F)) :
    lastWrite (.external key) (allWrites supplies arrivals) = none := by
  have inside : ∀ entry ∈ allWrites supplies arrivals, entry.1 ≠ .external key := by
    induction arrivals generalizing supplies with
    | nil => simp [allWrites]
    | cons arrival rest ih =>
        rw [allWrites, List.forall_mem_append]
        refine ⟨?_, ih (arrival.drawn supplies)⟩
        obtain ⟨target, value⟩ := arrival
        cases target <;> simp [Arrival.writes]
  rw [lastWrite, List.lookup_eq_none_iff]
  intro entry member
  have differ := inside entry (List.mem_reverse.mp member)
  simpa using differ.symm

end Arrival

namespace Target

theorem allCells_eq_flatMap (parts : List Target) : allCells parts = parts.flatMap cells := by
  induction parts with
  | nil => rfl
  | cons part rest ih => rw [allCells, ih, List.flatMap_cons]

theorem sentTo?_of_mem_arrivals {key : String} (target : Target) (value : Value F)
    (absent : .external key ∉ target.cells) :
    ∀ arrival ∈ target.arrivals value, arrival.sentTo? key = none := by
  let good : Target → Value F → Prop := fun target _ => .external key ∉ target.cells
  have inside : ∀ parts components, good (.tuple parts) (.bundle components) →
      ∀ pair ∈ parts.zip components, good pair.1 pair.2 := by
    intro parts components all pair member among
    have written : Cell.external key ∈ allCells parts := by
      rw [allCells_eq_flatMap]
      exact List.mem_flatMap.mpr ⟨pair.1, (List.of_mem_zip member).1, among⟩
    exact all written
  have single : ∀ arrival : Arrival F, arrival.Single → good arrival.target arrival.value →
      arrival.sentTo? key = none := by
    intro arrival _ apart
    obtain ⟨place, arriving⟩ := arrival
    cases place with
    | external other name hook =>
        have differ : ¬ other = key := by
          intro same
          exact apart (by simp [cells, same])
        exact if_neg differ
    | _ => rfl
  exact forall_mem_arrivals inside single target value absent

end Target

mutual

/-- To settle a value takes from iterators what its deposit would take, and changes nothing else.
What arrives of the settled value is what arrives of the value, settled. -/
theorem outcome_settle : ∀ (target : Target) (value : Value F) (world : World F σ),
    (∀ arrival ∈ target.arrivals value, arrival.Quiet world.supplies) →
      ∃ settled, (settle target value).outcome world = (.ok settled,
          { world with supplies := Arrival.allDrawn world.supplies (target.arrivals value) }) ∧
        target.arrivals settled = Arrival.settleEach world.supplies (target.arrivals value)
  | .sequence key name, value, world, quiet => by
      have accepted : Arrival.refusal? world.supplies ⟨.sequence key name, value⟩ = none :=
        quiet _ (List.mem_singleton.mpr rfl)
      refine ⟨.list (value.itemsIn world.supplies), ?_, rfl⟩
      rw [settle, outcome_bind, outcome_sequenceItems value key name, accepted]
      rfl
  | .tuple parts, value, world, quiet => by
      cases value with
      | bundle components =>
          rw [Target.arrivals] at quiet ⊢
          rw [settle]
          split
          · rename_i same
            rw [if_pos same] at quiet
            obtain ⟨settled, reached, arriving, length⟩ :=
              outcome_settleAll parts components world same quiet
            refine ⟨.bundle settled, ?_, ?_⟩
            · rw [outcome_bind, reached]
              rfl
            · rw [Target.arrivals, if_pos length, arriving]
          · rename_i differ
            refine ⟨.bundle components, rfl, ?_⟩
            rw [Target.arrivals, if_neg differ]
            rfl
      | _ => exact ⟨_, rfl, rfl⟩
  | .discard, value, _, _ | .slot _ _, value, _, _ | .external _ _ _, value, _, _
  | .unusable _ _, value, _, _ => ⟨value, rfl, rfl⟩

theorem outcome_settleAll : ∀ (parts : List Target) (components : List (Value F))
    (world : World F σ), components.length = parts.length →
    (∀ arrival ∈ Target.allArrivals parts components, arrival.Quiet world.supplies) →
      ∃ settled, (settleAll parts components).outcome world = (.ok settled,
          { world with
            supplies := Arrival.allDrawn world.supplies (Target.allArrivals parts components) }) ∧
        Target.allArrivals parts settled =
          Arrival.settleEach world.supplies (Target.allArrivals parts components) ∧
        settled.length = parts.length
  | [], [], world, _, _ => ⟨[], rfl, rfl, rfl⟩
  | part :: parts, component :: components, world, same, quiet => by
      rw [Target.allArrivals, List.forall_mem_append] at quiet
      obtain ⟨first, reached, arrivingFirst⟩ := outcome_settle part component world quiet.1
      obtain ⟨rest, ended, arrivingRest, length⟩ := outcome_settleAll parts components
        { world with supplies := Arrival.allDrawn world.supplies (part.arrivals component) }
        (Nat.succ.inj same) fun arrival member => Arrival.quiet_drawn (quiet.2 arrival member) _
      refine ⟨first :: rest, ?_, ?_, congrArg Nat.succ length⟩
      · simp only [settleAll, outcome_bind, reached, ended, outcome_pure, Target.allArrivals,
          Arrival.allDrawn_append]
      · rw [Target.allArrivals, Target.allArrivals, Arrival.settleEach_append, arrivingFirst,
          arrivingRest]
  | [], _ :: _, _, same, _ => by simp at same
  | _ :: _, [], _, same, _ => by simp at same

end

mutual

theorem settle_of_settled : ∀ (target : Target) (value : Value F),
    (∀ arrival ∈ target.arrivals value, arrival.Settled) →
      (settle target value : Action F σ (Value F)) = pure value
  | .sequence key name, value, settled => by
      obtain ⟨items, same⟩ : ∃ items, value = .list items :=
        settled ⟨.sequence key name, value⟩ (List.mem_singleton.mpr rfl)
      rw [same]
      rfl
  | .tuple parts, value, settled => by
      cases value with
      | bundle components =>
          rw [Target.arrivals] at settled
          rw [settle]
          split
          · rename_i same
            rw [if_pos same] at settled
            rw [settleAll_of_settled parts components same settled, pure_bind]
          · rfl
      | _ => rfl
  | .discard, _, _ | .slot _ _, _, _ | .external _ _ _, _, _ | .unusable _ _, _, _ => rfl

theorem settleAll_of_settled : ∀ (parts : List Target) (components : List (Value F)),
    components.length = parts.length →
    (∀ arrival ∈ Target.allArrivals parts components, arrival.Settled) →
      (settleAll parts components : Action F σ (List (Value F))) = pure components
  | [], [], _, _ => rfl
  | part :: parts, component :: components, same, settled => by
      rw [Target.allArrivals, List.forall_mem_append] at settled
      rw [settleAll, settle_of_settled part component settled.1,
        settleAll_of_settled parts components (Nat.succ.inj same) settled.2, pure_bind, pure_bind]
  | [], _ :: _, same, _ => by simp at same
  | _ :: _, [], same, _ => by simp at same

end

theorem World.Took.content {before after : World F σ} {written tried : List (Arrival F)}
    (took : before.Took written tried after)
    (unsent : ∀ key, ∀ arrival ∈ written, arrival.sentTo? key = none) (cell : Cell) :
    after.content cell =
      (lastWrite cell (Arrival.allWrites before.supplies written)).getD (before.content cell) := by
  cases cell with
  | external key =>
      have none : written.filterMap (Arrival.sentTo? key) = [] :=
        List.filterMap_eq_nil_iff.mpr (unsent key)
      have received := took.received key
      rw [none, List.append_nil] at received
      rw [Arrival.lastWrite_external]
      exact congrArg Value.list received
  | _ => exact took.held _ (by simp)

/-- The state that a deposit reaches, however it ends. -/
def World.deposited (target : Target) (value : Value F) (world : World F σ) : World F σ :=
  ((deposit target value).outcome world).2

theorem outcome_deposit_settled {target : Target} {value settled : Value F} {world : World F σ}
    (accepted : ∀ arrival ∈ target.arrivals value, arrival.refusal? world.supplies = none)
    (arriving : target.arrivals settled =
      Arrival.settleEach world.supplies (target.arrivals value)) :
    let middle : World F σ :=
      { world with supplies := Arrival.allDrawn world.supplies (target.arrivals value) }
    ∃ again, (deposit target settled).outcome middle = (.ok (), again) ∧
      (∀ cell, again.content cell = (world.deposited target value).content cell) ∧
      again.supplies = (world.deposited target value).supplies := by
  intro middle
  obtain ⟨after, ended, took⟩ := outcome_deposit_of_accepted accepted
  have reached : world.deposited target value = after := by rw [World.deposited, ended]
  have still : ∀ arrival ∈ target.arrivals settled, arrival.refusal? middle.supplies = none := by
    rw [arriving]
    exact Arrival.refusal?_settleEach accepted middle.supplies
  obtain ⟨again, succeeded, tookAgain⟩ := outcome_deposit_of_accepted still
  rw [arriving] at tookAgain
  rw [reached]
  refine ⟨again, succeeded, ?_, ?_⟩
  · intro cell
    by_cases outside : ∃ key, cell = .external key
    · obtain ⟨key, same⟩ := outside
      have received := tookAgain.received key
      rw [Arrival.filterMap_sentTo?_settleEach] at received
      rw [same]
      exact congrArg Value.list (received.trans (took.received key).symm)
    · have inside : ∀ key, cell ≠ .external key := fun key same => outside ⟨key, same⟩
      rw [tookAgain.held cell inside, took.held cell inside, Arrival.allWrites_settleEach]
      cases cell <;> rfl
  · rw [tookAgain.supplies, took.supplies,
      Arrival.allDrawn_of_settled Arrival.settled_of_mem_settleEach]

end Bindery
