import Bindery.Proofs.Contents

set_option autoImplicit false

namespace Bindery

open Bindery.Action

variable {F σ : Type}

/-- A target that is not taken apart any further, and the value that arrives there. -/
structure Arrival (F : Type) where
  target : Target
  value : Value F

namespace Target

mutual

/-- What arrives where when a value is sent to a target, in order. -/
def arrivals : Target → Value F → List (Arrival F)
  | .tuple parts, .bundle components =>
      if components.length = parts.length then allArrivals parts components
      else [⟨.tuple parts, .bundle components⟩]
  | target, value => [⟨target, value⟩]

def allArrivals : List Target → List (Value F) → List (Arrival F)
  | part :: parts, component :: components =>
      arrivals part component ++ allArrivals parts components
  | _, _ => []

end

end Target

/-- The items that a value has when it is to be held as a sequence: an iterator has those that are
left, a container its own, and anything else is the only item. -/
def Value.itemsIn (supplies : List (Supply F)) : Value F → List (Value F)
  | .iterator number => (supplies[number]?.map Supply.items).getD []
  | value => value.heldItems?.getD []

/-- What a cell was given last, if it was given anything. -/
def lastWrite (cell : Cell) (contents : Contents F) : Option (Value F) :=
  contents.reverse.lookup cell

namespace Arrival

/-- An arrival that does not spread any further: a tuple is one only if the value does not fit. -/
def Single : Arrival F → Prop
  | ⟨.tuple parts, .bundle components⟩ => components.length ≠ parts.length
  | _ => True

/-- The error that an arrival is refused with, if it is: a tuple whose value is not a bundle of its
length, an object that takes no values, an external target or an iterator that fails. -/
def refusal? (supplies : List (Supply F)) : Arrival F → Option Error
  | ⟨.tuple parts, .bundle components⟩ => some (.arityMismatch components.length parts.length)
  | ⟨.tuple parts, value⟩ => some (.notBundled parts.length value.typeName)
  | ⟨.unusable type _, _⟩ => some (.unsupportedTarget type)
  | ⟨.external _ _ hook, value⟩ => (hook value.typeName value.likeness).map (.raised .value)
  | ⟨.sequence _ _, .iterator number⟩ =>
      (supplies[number]?.bind Supply.failure).map (.raised .value)
  | _ => none

/-- What iterators have left after an arrival. A sequence takes all that is left. -/
def drawn (supplies : List (Supply F)) : Arrival F → List (Supply F)
  | ⟨.sequence _ _, .iterator number⟩ =>
      supplies.modify number fun supply => { supply with items := [] }
  | _ => supplies

/-- What an arrival leaves in a slot or a sequence. -/
def writes (supplies : List (Supply F)) : Arrival F → Contents F
  | ⟨.slot key _, value⟩ => [(.slot key, value)]
  | ⟨.sequence key _, value⟩ => [(.sequence key, .list (value.itemsIn supplies))]
  | _ => []

/-- What is to be seen of an arrival: an external target is sent the value. -/
def events (supplies : List (Supply F)) : Arrival F → List Event
  | ⟨.external key _ _, value⟩ => [.captured key (value.written supplies)]
  | _ => []

def sentTo? (key : String) : Arrival F → Option (Value F)
  | ⟨.external name _ _, value⟩ => if name = key then some value else none
  | _ => none

/-- What iterators have left after arrivals, in order. -/
def allDrawn (supplies : List (Supply F)) (arrivals : List (Arrival F)) : List (Supply F) :=
  arrivals.foldl drawn supplies

/-- What arrivals leave in slots and sequences, in order. Each finds the iterators as the earlier
ones have left them. -/
def allWrites (supplies : List (Supply F)) : List (Arrival F) → Contents F
  | [] => []
  | arrival :: rest => arrival.writes supplies ++ allWrites (arrival.drawn supplies) rest

def allEvents (supplies : List (Supply F)) : List (Arrival F) → List Event
  | [] => []
  | arrival :: rest => arrival.events supplies ++ allEvents (arrival.drawn supplies) rest

def depositEach : List (Arrival F) → Action F σ PUnit
  | [] => return ()
  | arrival :: rest => do
      deposit arrival.target arrival.value
      depositEach rest

theorem depositEach_append (first second : List (Arrival F)) :
    (depositEach (first ++ second) : Action F σ PUnit) =
      depositEach first >>= fun _ => depositEach second := by
  induction first with
  | nil => simp [depositEach]
  | cons arrival rest ih => simp [depositEach, ih]

theorem depositEach_singleton (arrival : Arrival F) :
    (depositEach [arrival] : Action F σ PUnit) = deposit arrival.target arrival.value := by
  simp [depositEach]

theorem allDrawn_append (supplies : List (Supply F)) (first second : List (Arrival F)) :
    allDrawn supplies (first ++ second) = allDrawn (allDrawn supplies first) second :=
  List.foldl_append

theorem allWrites_append (supplies : List (Supply F)) (first second : List (Arrival F)) :
    allWrites supplies (first ++ second) =
      allWrites supplies first ++ allWrites (allDrawn supplies first) second := by
  induction first generalizing supplies with
  | nil => rfl
  | cons arrival rest ih => simp [allWrites, allDrawn, ih]

theorem allEvents_append (supplies : List (Supply F)) (first second : List (Arrival F)) :
    allEvents supplies (first ++ second) =
      allEvents supplies first ++ allEvents (allDrawn supplies first) second := by
  induction first generalizing supplies with
  | nil => rfl
  | cons arrival rest ih => simp [allEvents, allDrawn, ih]

/-- How an iterator ends does not change while items are taken from it. -/
theorem failure_drawn (supplies : List (Supply F)) (arrival : Arrival F) (number : Nat) :
    (arrival.drawn supplies)[number]?.bind Supply.failure =
      supplies[number]?.bind Supply.failure := by
  unfold drawn
  split
  · rename_i other
    rw [List.getElem?_modify]
    cases supplies[number]? with
    | none => rfl
    | some supply => by_cases same : other = number <;> simp [same]
  · rfl

theorem refusal?_drawn (supplies : List (Supply F)) (earlier arrival : Arrival F) :
    arrival.refusal? (earlier.drawn supplies) = arrival.refusal? supplies := by
  unfold refusal?
  split <;> try rfl
  rw [failure_drawn]

theorem refusal?_allDrawn (supplies : List (Supply F)) (earlier : List (Arrival F))
    (arrival : Arrival F) :
    arrival.refusal? (allDrawn supplies earlier) = arrival.refusal? supplies := by
  induction earlier generalizing supplies with
  | nil => rfl
  | cons first rest ih =>
      calc arrival.refusal? (allDrawn supplies (first :: rest))
          = arrival.refusal? (first.drawn supplies) := ih (first.drawn supplies)
        _ = arrival.refusal? supplies := refusal?_drawn supplies first arrival

end Arrival

namespace Target

mutual

/-- What holds of a target with a value, and then of its parts with the components, holds of all
that arrives. -/
theorem forall_mem_arrivals {good : Target → Value F → Prop} {such : Arrival F → Prop}
    (inside : ∀ parts components, good (.tuple parts) (.bundle components) →
      ∀ pair ∈ parts.zip components, good pair.1 pair.2)
    (single : ∀ arrival : Arrival F, arrival.Single → good arrival.target arrival.value →
      such arrival) :
    ∀ (target : Target) (value : Value F), good target value →
      ∀ arrival ∈ target.arrivals value, such arrival
  | .tuple parts, value, holds, arrival, member => by
      cases value with
      | bundle components =>
          rw [arrivals] at member
          split at member
          · exact forall_mem_allArrivals inside single parts components
              (inside parts components holds) arrival member
          · rename_i differ
            rw [List.mem_singleton.mp member]
            exact single _ differ holds
      | _ =>
          simp only [arrivals, List.mem_singleton] at member
          rw [member]
          exact single _ trivial holds
  | .discard, _, holds, _, member | .slot _ _, _, holds, _, member
  | .sequence _ _, _, holds, _, member | .external _ _ _, _, holds, _, member
  | .unusable _ _, _, holds, _, member => by
      simp only [arrivals, List.mem_singleton] at member
      rw [member]
      exact single _ trivial holds

theorem forall_mem_allArrivals {good : Target → Value F → Prop} {such : Arrival F → Prop}
    (inside : ∀ parts components, good (.tuple parts) (.bundle components) →
      ∀ pair ∈ parts.zip components, good pair.1 pair.2)
    (single : ∀ arrival : Arrival F, arrival.Single → good arrival.target arrival.value →
      such arrival) :
    ∀ (parts : List Target) (components : List (Value F)),
      (∀ pair ∈ parts.zip components, good pair.1 pair.2) →
        ∀ arrival ∈ allArrivals parts components, such arrival
  | part :: parts, component :: components, holds, arrival, member => by
      rw [List.zip_cons_cons, List.forall_mem_cons] at holds
      rw [allArrivals] at member
      rcases List.mem_append.mp member with first | later
      · exact forall_mem_arrivals inside single part component holds.1 arrival first
      · exact forall_mem_allArrivals inside single parts components holds.2 arrival later
  | [], _, _, _, member => by simp [allArrivals] at member
  | _ :: _, [], _, _, member => by simp [allArrivals] at member

end

theorem single_of_mem_arrivals (target : Target) (value : Value F) :
    ∀ arrival ∈ target.arrivals value, arrival.Single := by
  let good : Target → Value F → Prop := fun _ _ => True
  have inside : ∀ parts components, good (.tuple parts) (.bundle components) →
      ∀ pair ∈ parts.zip components, good pair.1 pair.2 := fun _ _ _ _ _ => trivial
  exact forall_mem_arrivals inside (fun _ single _ => single) target value trivial

end Target

mutual

/-- A deposit is the deposit of what arrives, one after the other. -/
theorem deposit_eq_depositEach : ∀ (target : Target) (value : Value F),
    (deposit target value : Action F σ PUnit) = Arrival.depositEach (target.arrivals value)
  | .tuple parts, value => by
      cases value with
      | bundle components =>
          rw [Target.arrivals]
          split
          · rename_i same
            rw [deposit, if_pos same]
            exact depositAll_eq_depositEach parts components
          · rw [Arrival.depositEach_singleton]
      | _ => simp only [Target.arrivals, Arrival.depositEach_singleton]
  | .discard, _ | .slot _ _, _ | .sequence _ _, _ | .external _ _ _, _ | .unusable _ _, _ => by
      simp only [Target.arrivals, Arrival.depositEach_singleton]

theorem depositAll_eq_depositEach : ∀ (parts : List Target) (components : List (Value F)),
    (depositAll parts components : Action F σ PUnit) =
      Arrival.depositEach (Target.allArrivals parts components)
  | part :: parts, component :: components => by
      rw [depositAll, Target.allArrivals, Arrival.depositEach_append,
        deposit_eq_depositEach part component, depositAll_eq_depositEach parts components]
  | [], _ => by simp [depositAll, Target.allArrivals, Arrival.depositEach]
  | _ :: _, [] => by simp [depositAll, Target.allArrivals, Arrival.depositEach]

end

/-- What has become of a state when these arrivals have been written, and those were tried. Slots
and sequences hold what was written last, or what they held; external targets have been sent their
values in order; the iterators that were tried have nothing left. All else is as it was. -/
structure World.Took (before : World F σ) (written tried : List (Arrival F))
    (after : World F σ) : Prop where
  held : ∀ cell, (∀ key, cell ≠ .external key) → after.content cell =
    (lastWrite cell (Arrival.allWrites before.supplies written)).getD (before.content cell)
  received : ∀ key, after.receivedBy key =
    before.receivedBy key ++ written.filterMap (Arrival.sentTo? key)
  supplies : after.supplies = Arrival.allDrawn before.supplies tried
  events : after.events = before.events ++ Arrival.allEvents before.supplies tried
  contexts : after.contexts = before.contexts
  opened : after.opened = before.opened
  client : after.client = before.client

namespace World.Took

variable {before middle after : World F σ}

theorem refl (world : World F σ) : world.Took [] [] world where
  held _ _ := rfl
  received _ := (List.append_nil _).symm
  supplies := rfl
  events := (List.append_nil _).symm
  contexts := rfl
  opened := rfl
  client := rfl

theorem trans {earlier written tried : List (Arrival F)}
    (first : before.Took earlier earlier middle) (second : middle.Took written tried after) :
    before.Took (earlier ++ written) (earlier ++ tried) after where
  held cell inside := by
    rw [second.held cell inside, first.held cell inside, first.supplies,
      Arrival.allWrites_append, lastWrite, lastWrite, lastWrite, List.reverse_append,
      List.lookup_append, Option.getD_or]
  received key := by
    rw [second.received, first.received, List.filterMap_append, List.append_assoc]
  supplies := by rw [second.supplies, first.supplies, Arrival.allDrawn_append]
  events := by
    rw [second.events, first.events, first.supplies, Arrival.allEvents_append, List.append_assoc]
  contexts := second.contexts.trans first.contexts
  opened := second.opened.trans first.opened
  client := second.client.trans first.client

end World.Took

theorem lastWrite_singleton (cell other : Cell) (value : Value F) :
    lastWrite cell [(other, value)] = if cell = other then some value else none := by
  by_cases same : cell = other
  · simp [lastWrite, same]
  · have differ : (cell == other) = false := by simpa using same
    simp [lastWrite, List.lookup_cons, same, differ]

theorem outcome_drain (number : Nat) (world : World F σ) :
    (drain number).outcome world =
      (match world.supplies[number]?.bind Supply.failure with
        | none => .ok ((world.supplies[number]?.map Supply.items).getD [])
        | some message => .error (.raised .value message),
      { world with
        supplies := world.supplies.modify number fun supply => { supply with items := [] } }) := by
  rw [drain, outcome_bind, outcome_get, List.modify_eq_set_getElem?]
  cases found : world.supplies[number]? with
  | none => simp [found]
  | some supply =>
      simp only [found, outcome_bind, outcome_modify, Option.bind_some, Option.map_eq_map,
        Option.map_some, Option.getD_some]
      cases supply.failure <;> rfl

theorem outcome_sequenceItems (value : Value F) (key : String) (name : Option Text)
    (world : World F σ) :
    (sequenceItems value).outcome world =
      (match Arrival.refusal? world.supplies ⟨.sequence key name, value⟩ with
        | none => .ok (value.itemsIn world.supplies)
        | some error => .error error,
      { world with
        supplies := Arrival.drawn world.supplies ⟨.sequence key name, value⟩ }) := by
  cases value with
  | iterator number =>
      rw [sequenceItems, outcome_drain]
      simp only [Arrival.refusal?, Arrival.drawn, Value.itemsIn]
      cases world.supplies[number]?.bind Supply.failure <;> rfl
  | _ => rfl

theorem took_slot (world : World F σ) (key : String) (name : Option Text) (value : Value F) :
    world.Took [⟨.slot key name, value⟩] [⟨.slot key name, value⟩] (world.setSlot key value) := by
  refine { World.Took.refl world with held := ?_, received := ?_, supplies := rfl, events := ?_ }
  · intro cell _
    show _ = (lastWrite cell [(.slot key, value)]).getD _
    rw [lastWrite_singleton]
    by_cases same : cell = .slot key
    · subst same
      rw [if_pos rfl]
      exact (world.slot_setSlot key key value).trans (if_pos rfl)
    · rw [if_neg same]
      exact world.content_setSlot_of_ne key value same
  · exact fun _ => (List.append_nil _).symm
  · exact (List.append_nil _).symm

theorem took_sequence (world : World F σ) (key : String) (name : Option Text)
    (value : Value F) :
    let arrival : Arrival F := ⟨.sequence key name, value⟩
    world.Took [arrival] [arrival]
      ({ world with supplies := arrival.drawn world.supplies }.setSequence key
        (value.itemsIn world.supplies)) := by
  intro arrival
  refine { World.Took.refl world with held := ?_, received := ?_, supplies := rfl, events := ?_ }
  · intro cell _
    show _ = (lastWrite cell [(.sequence key, .list (value.itemsIn world.supplies))]).getD _
    rw [lastWrite_singleton]
    by_cases same : cell = .sequence key
    · subst same
      rw [if_pos rfl]
      exact congrArg Value.list ((World.sequence_setSequence _ key key _).trans (if_pos rfl))
    · rw [if_neg same]
      refine (World.content_setSequence_of_ne _ key _ same).trans ?_
      cases cell <;> rfl
  · exact fun _ => (List.append_nil _).symm
  · exact (List.append_nil _).symm

theorem took_failing_sequence (world : World F σ) (key : String) (name : Option Text)
    (value : Value F) :
    let arrival : Arrival F := ⟨.sequence key name, value⟩
    world.Took [] [arrival] { world with supplies := arrival.drawn world.supplies } := by
  intro arrival
  refine { World.Took.refl world with held := ?_, supplies := rfl, events := ?_ }
  · intro cell _
    cases cell <;> rfl
  · exact (List.append_nil _).symm

theorem took_external (world : World F σ) (key : String) (name : Option Text) (hook : Hook)
    (value : Value F) :
    let arrival : Arrival F := ⟨.external key name hook, value⟩
    let called : World F σ :=
      { world with events := world.events ++ [.captured key (world.written value)] }
    world.Took [] [arrival] called ∧ world.Took [arrival] [arrival] (called.receive key value) := by
  intro arrival called
  refine ⟨{ World.Took.refl world with held := ?_, supplies := rfl, events := ?_ },
    { World.Took.refl world with
      held := ?_, received := ?_, supplies := rfl, events := ?_ }⟩
  · intro cell _
    cases cell <;> rfl
  · exact congrArg (world.events ++ ·) (List.append_nil _).symm
  · intro cell inside
    refine (World.content_receive_of_ne called key value (inside key)).trans ?_
    cases cell <;> rfl
  · intro other
    rw [World.receivedBy_receive]
    by_cases same : other = key
    · subst same
      simp only [if_true, List.filterMap_cons, List.filterMap_nil, arrival, Arrival.sentTo?]
      rfl
    · have differ : ¬ key = other := fun h => same h.symm
      simp only [if_neg same, List.filterMap_cons, List.filterMap_nil, arrival, Arrival.sentTo?,
        if_neg differ, List.append_nil]
      rfl
  · exact congrArg (world.events ++ ·) (List.append_nil _).symm

theorem outcome_deposit_arrival {arrival : Arrival F} (single : arrival.Single)
    (world : World F σ) :
    ∃ after, (deposit arrival.target arrival.value).outcome world =
        (match arrival.refusal? world.supplies with
          | none => .ok ()
          | some error => .error error, after) ∧
      world.Took (if arrival.refusal? world.supplies = none then [arrival] else []) [arrival]
        after := by
  obtain ⟨target, value⟩ := arrival
  cases target with
  | discard => exact ⟨world, rfl, { World.Took.refl world with }⟩
  | slot key name => exact ⟨world.setSlot key value, rfl, took_slot world key name value⟩
  | sequence key name =>
      simp only [deposit, outcome_bind, outcome_sequenceItems value key name]
      cases refused : Arrival.refusal? world.supplies ⟨.sequence key name, value⟩ with
      | none => exact ⟨_, rfl, took_sequence world key name value⟩
      | some error => exact ⟨_, rfl, took_failing_sequence world key name value⟩
  | external key name hook =>
      obtain ⟨called, received⟩ := took_external world key name hook value
      rw [deposit, Arrival.refusal?]
      cases hook value.typeName value.likeness with
      | none => exact ⟨_, rfl, received⟩
      | some message => exact ⟨_, rfl, called⟩
  | tuple parts =>
      cases value with
      | bundle components =>
          have differ : components.length ≠ parts.length := single
          simp only [deposit, if_neg differ]
          exact ⟨world, rfl, { World.Took.refl world with }⟩
      | _ => exact ⟨world, rfl, { World.Took.refl world with }⟩
  | unusable type likeness =>
      exact ⟨world, rfl, { World.Took.refl world with }⟩

theorem outcome_depositEach_of_accepted {arrivals : List (Arrival F)} {world : World F σ}
    (single : ∀ arrival ∈ arrivals, arrival.Single)
    (accepted : ∀ arrival ∈ arrivals, arrival.refusal? world.supplies = none) :
    ∃ after, (Arrival.depositEach arrivals).outcome world = (.ok (), after) ∧
      world.Took arrivals arrivals after := by
  induction arrivals generalizing world with
  | nil => exact ⟨world, rfl, .refl world⟩
  | cons arrival rest ih =>
      rw [List.forall_mem_cons] at single accepted
      obtain ⟨middle, first, took⟩ := outcome_deposit_arrival single.1 world
      simp only [accepted.1, if_true] at first took
      have later : ∀ other ∈ rest, other.refusal? middle.supplies = none := by
        intro other member
        rw [took.supplies, Arrival.refusal?_allDrawn]
        exact accepted.2 other member
      obtain ⟨after, ended, others⟩ := ih single.2 later
      refine ⟨after, ?_, took.trans others⟩
      rw [Arrival.depositEach, outcome_bind, first]
      exact ended

theorem outcome_depositEach_of_refused {earlier later : List (Arrival F)} {failing : Arrival F}
    {error : Error} {world : World F σ}
    (single : ∀ arrival ∈ earlier ++ failing :: later, arrival.Single)
    (accepted : ∀ arrival ∈ earlier, arrival.refusal? world.supplies = none)
    (refused : failing.refusal? world.supplies = some error) :
    ∃ after, (Arrival.depositEach (earlier ++ failing :: later)).outcome world =
        (.error error, after) ∧ world.Took earlier (earlier ++ [failing]) after := by
  rw [List.forall_mem_append, List.forall_mem_cons] at single
  obtain ⟨before, ⟨here, -⟩⟩ := single
  obtain ⟨middle, first, took⟩ := outcome_depositEach_of_accepted before accepted
  have still : failing.refusal? middle.supplies = some error := by
    rw [took.supplies, Arrival.refusal?_allDrawn, refused]
  obtain ⟨after, ended, last⟩ := outcome_deposit_arrival here middle
  simp only [still, reduceCtorEq, if_false] at ended last
  refine ⟨after, ?_, by simpa only [List.append_nil] using took.trans last⟩
  rw [Arrival.depositEach_append, outcome_bind, first]
  simp only [Arrival.depositEach, outcome_bind, ended]

theorem Arrival.exists_first_refused (supplies : List (Supply F)) (arrivals : List (Arrival F)) :
    (∀ arrival ∈ arrivals, arrival.refusal? supplies = none) ∨
      ∃ earlier failing later error, arrivals = earlier ++ failing :: later ∧
        (∀ arrival ∈ earlier, arrival.refusal? supplies = none) ∧
        failing.refusal? supplies = some error := by
  induction arrivals with
  | nil => exact Or.inl (by simp)
  | cons arrival rest ih =>
      cases refused : arrival.refusal? supplies with
      | some error => exact Or.inr ⟨[], arrival, rest, error, rfl, by simp, refused⟩
      | none =>
          rcases ih with accepted | ⟨earlier, failing, later, error, same, accepted, failed⟩
          · exact Or.inl (List.forall_mem_cons.mpr ⟨refused, accepted⟩)
          · refine Or.inr ⟨arrival :: earlier, failing, later, error, ?_, ?_, failed⟩
            · rw [same, List.cons_append]
            · exact List.forall_mem_cons.mpr ⟨refused, accepted⟩

theorem outcome_deposit_of_accepted {target : Target} {value : Value F} {world : World F σ}
    (accepted : ∀ arrival ∈ target.arrivals value, arrival.refusal? world.supplies = none) :
    ∃ after, (deposit target value).outcome world = (.ok (), after) ∧
      world.Took (target.arrivals value) (target.arrivals value) after := by
  rw [deposit_eq_depositEach]
  exact outcome_depositEach_of_accepted (target.single_of_mem_arrivals value) accepted

theorem outcome_deposit_of_refused {target : Target} {value : Value F} {world : World F σ}
    {earlier later : List (Arrival F)} {failing : Arrival F} {error : Error}
    (split : target.arrivals value = earlier ++ failing :: later)
    (accepted : ∀ arrival ∈ earlier, arrival.refusal? world.supplies = none)
    (refused : failing.refusal? world.supplies = some error) :
    ∃ after, (deposit target value).outcome world = (.error error, after) ∧
      world.Took earlier (earlier ++ [failing]) after := by
  have single := target.single_of_mem_arrivals value
  rw [split] at single
  rw [deposit_eq_depositEach, split]
  exact outcome_depositEach_of_refused single accepted refused

theorem accepted_of_outcome_deposit {target : Target} {value : Value F} {world after : World F σ}
    (ended : (deposit target value).outcome world = (.ok (), after)) :
    ∀ arrival ∈ target.arrivals value, arrival.refusal? world.supplies = none := by
  rcases Arrival.exists_first_refused world.supplies (target.arrivals value) with
    accepted | ⟨earlier, failing, later, error, split, accepted, refused⟩
  · exact accepted
  · obtain ⟨last, failed, -⟩ := outcome_deposit_of_refused split accepted refused
    rw [ended] at failed
    cases failed

/-- A deposit writes what arrives, from left to right. If something is refused, the first of it
ends the deposit with its error: what arrived before stays written, and nothing after it is tried.
Otherwise all is written, and where a target occurs more than once the last arrival counts. -/
theorem deposit_exact (target : Target) (value : Value F) (world : World F σ) :
    (∀ earlier failing later error, target.arrivals value = earlier ++ failing :: later →
      (∀ arrival ∈ earlier, arrival.refusal? world.supplies = none) →
      failing.refusal? world.supplies = some error →
        ∃ after, (deposit target value).outcome world = (.error error, after) ∧
          world.Took earlier (earlier ++ [failing]) after) ∧
    ((∃ after, (deposit target value).outcome world = (.ok (), after)) ↔
      ∀ arrival ∈ target.arrivals value, arrival.refusal? world.supplies = none) ∧
    ∀ after, (deposit target value).outcome world = (.ok (), after) →
      world.Took (target.arrivals value) (target.arrivals value) after := by
  refine ⟨?_, ?_, ?_⟩
  · intro earlier failing later error split accepted refused
    exact outcome_deposit_of_refused split accepted refused
  · constructor
    · intro succeeds
      obtain ⟨after, ended⟩ := succeeds
      exact accepted_of_outcome_deposit ended
    · intro accepted
      obtain ⟨after, ended, -⟩ := outcome_deposit_of_accepted accepted
      exact ⟨after, ended⟩
  · intro after ended
    obtain ⟨last, reached, took⟩ :=
      outcome_deposit_of_accepted (accepted_of_outcome_deposit ended)
    rw [ended] at reached
    cases reached
    exact took

/-- Two sequences share an iterator, a slot occurs twice, and a tuple is sent something that is no
bundle. -/
def crowdedTarget : Target :=
  .tuple [.sequence "xs" none, .slot "x" none, .sequence "ys" none, .slot "x" none,
    .tuple [.slot "y" none], .slot "z" none]

def crowdedValue : Value Unit :=
  .bundle [.iterator 0, .int 1, .iterator 0, .int 2, .int 3, .int 4]

def crowdedWorld : World Unit Unit :=
  { supplies := [{ items := [.int 7, .int 8] }], client := () }

/-- The deposit fails at the tuple. The first sequence has all items by then and the second one has
none, the slot holds its later value, and the last slot is never written. -/
theorem deposit_exact_crowdedTarget :
    ∃ after, (deposit crowdedTarget crowdedValue).outcome crowdedWorld =
        (.error (.notBundled 1 .int), after) ∧
      after.content (.sequence "xs") = .list [.int 7, .int 8] ∧
      after.content (.sequence "ys") = .list [] ∧ after.content (.slot "x") = .int 2 ∧
      after.content (.slot "y") = .unbound ∧ after.content (.slot "z") = .unbound := by
  obtain ⟨after, ended, took⟩ := (deposit_exact crowdedTarget crowdedValue crowdedWorld).1
    [⟨.sequence "xs" none, .iterator 0⟩, ⟨.slot "x" none, .int 1⟩,
      ⟨.sequence "ys" none, .iterator 0⟩, ⟨.slot "x" none, .int 2⟩]
    ⟨.tuple [.slot "y" none], .int 3⟩ [⟨.slot "z" none, .int 4⟩] (.notBundled 1 .int)
    rfl (by simp [Arrival.refusal?, crowdedWorld]) rfl
  refine ⟨after, ended, ?_, ?_, ?_, ?_, ?_⟩
  · exact took.held (.sequence "xs") (by simp)
  · exact took.held (.sequence "ys") (by simp)
  · exact took.held (.slot "x") (by simp)
  · exact took.held (.slot "y") (by simp)
  · exact took.held (.slot "z") (by simp)

end Bindery
