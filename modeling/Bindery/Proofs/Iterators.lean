import Bindery.Proofs.Snapshot

set_option autoImplicit false

namespace Bindery

open Bindery.Action

variable {F σ α β : Type}

namespace Value

mutual

/-- Whether a value holds no iterator, at any depth. -/
def isFree : Value F → Bool
  | .iterator _ => false
  | .list items => areFree items
  | .tuple items => areFree items
  | .bundle components => areFree components
  | .dictionary entries => entriesFree entries
  | .listMonad _ _ items => areFree items
  | .deferred _ items _ => areFree items
  | .just _ content => isFree content
  | .stub _ methods _ => methodsFree methods
  | _ => true

def areFree : List (Value F) → Bool
  | [] => true
  | item :: rest => isFree item && areFree rest

def entriesFree : List (Value F × Value F) → Bool
  | [] => true
  | (key, content) :: rest => isFree key && isFree content && entriesFree rest

def methodsFree : List (Operation × Value F) → Bool
  | [] => true
  | (_, result) :: rest => isFree result && methodsFree rest

end

theorem areFree_iff (items : List (Value F)) :
    areFree items = true ↔ ∀ item ∈ items, item.isFree = true := by
  induction items with
  | nil => simp [areFree]
  | cons item rest ih => simp [areFree, ih]

mutual

/-- The iterators of a value that can be taken from it: the value itself, components of bundles, and
items of eager monads. -/
def exposed : Value F → List Nat
  | .iterator number => [number]
  | .bundle components => allExposed components
  | .listMonad _ _ items => allExposed items
  | .just _ content => exposed content
  | _ => []

def allExposed : List (Value F) → List Nat
  | [] => []
  | item :: rest => exposed item ++ allExposed rest

end

mutual

/-- The value with each of these iterators replaced by a list of its contents. -/
def listed (contents : Nat → List (Value F)) : Value F → Value F
  | .iterator number => .list (contents number)
  | .bundle components => .bundle (allListed contents components)
  | .listMonad number traced items => .listMonad number traced (allListed contents items)
  | .just number content => .just number (listed contents content)
  | value => value

def allListed (contents : Nat → List (Value F)) : List (Value F) → List (Value F)
  | [] => []
  | item :: rest => listed contents item :: allListed contents rest

end

theorem allListed_eq_map (contents : Nat → List (Value F)) (items : List (Value F)) :
    allListed contents items = items.map (listed contents) := by
  induction items with
  | nil => rfl
  | cons item rest ih => simp only [allListed, ih, List.map_cons]

mutual

theorem exposed_of_isFree : ∀ value : Value F, value.isFree = true → value.exposed = []
  | .iterator _, free => by simp [isFree] at free
  | .bundle components, free => allExposed_of_areFree components free
  | .listMonad _ _ items, free => allExposed_of_areFree items free
  | .just _ content, free => exposed_of_isFree content free
  | .null, _ | .bool _, _ | .int _, _ | .float _, _ | .str _, _ | .list _, _ | .tuple _, _
  | .dictionary _, _ | .octets _, _ | .buffer _, _ | .unbound, _ | .deferred _ _ _, _
  | .nothing _, _ | .stub _ _ _, _ => rfl

theorem allExposed_of_areFree : ∀ items : List (Value F), areFree items = true →
    allExposed items = []
  | [], _ => rfl
  | item :: rest, free => by
      simp only [areFree, Bool.and_eq_true] at free
      rw [allExposed, exposed_of_isFree item free.1, allExposed_of_areFree rest free.2,
        List.append_nil]

end

mutual

theorem listed_congr {contents other : Nat → List (Value F)} : ∀ value : Value F,
    (∀ number ∈ value.exposed, contents number = other number) →
      value.listed contents = value.listed other
  | .iterator number, same => by rw [listed, listed, same number (by simp [exposed])]
  | .bundle components, same => by rw [listed, listed, allListed_congr components same]
  | .listMonad _ _ items, same => by rw [listed, listed, allListed_congr items same]
  | .just _ content, same => by rw [listed, listed, listed_congr content same]
  | .null, _ | .bool _, _ | .int _, _ | .float _, _ | .str _, _ | .list _, _ | .tuple _, _
  | .dictionary _, _ | .octets _, _ | .buffer _, _ | .unbound, _ | .deferred _ _ _, _
  | .nothing _, _ | .stub _ _ _, _ => rfl

theorem allListed_congr {contents other : Nat → List (Value F)} : ∀ items : List (Value F),
    (∀ number ∈ allExposed items, contents number = other number) →
      allListed contents items = allListed other items
  | [], _ => rfl
  | item :: rest, same => by
      rw [allListed, allListed,
        listed_congr item fun number member => same number (by simp [allExposed, member]),
        allListed_congr rest fun number member => same number (by simp [allExposed, member])]

end

mutual

theorem listed_of_isFree (contents : Nat → List (Value F)) : ∀ value : Value F,
    value.isFree = true → value.listed contents = value
  | .iterator _, free => by simp [isFree] at free
  | .bundle components, free => by rw [listed, allListed_of_areFree contents components free]
  | .listMonad _ _ items, free => by rw [listed, allListed_of_areFree contents items free]
  | .just _ content, free => by rw [listed, listed_of_isFree contents content free]
  | .null, _ | .bool _, _ | .int _, _ | .float _, _ | .str _, _ | .list _, _ | .tuple _, _
  | .dictionary _, _ | .octets _, _ | .buffer _, _ | .unbound, _ | .deferred _ _ _, _
  | .nothing _, _ | .stub _ _ _, _ => rfl

theorem allListed_of_areFree (contents : Nat → List (Value F)) : ∀ items : List (Value F),
    areFree items = true → allListed contents items = items
  | [], _ => rfl
  | item :: rest, free => by
      simp only [areFree, Bool.and_eq_true] at free
      rw [allListed, listed_of_isFree contents item free.1,
        allListed_of_areFree contents rest free.2]

end

mutual

theorem writtenWith_of_isFree (iterator other : Nat → Json) : ∀ value : Value F,
    value.isFree = true → value.writtenWith iterator = value.writtenWith other
  | .iterator _, free => by simp [isFree] at free
  | .list items, free | .tuple items, free | .bundle items, free | .listMonad _ _ items, free => by
      rw [writtenWith, writtenWith, writtenItems_of_areFree iterator other items free]
  | .dictionary entries, free => by
      rw [writtenWith, writtenWith, writtenEntries_of_free iterator other entries free]
  | .just _ content, free => by
      rw [writtenWith, writtenWith, writtenWith_of_isFree iterator other content free]
  | .null, _ | .bool _, _ | .int _, _ | .float _, _ | .str _, _ | .octets _, _ | .buffer _, _
  | .unbound, _ | .deferred _ _ _, _ | .nothing _, _ | .stub _ _ _, _ => by
      simp only [writtenWith]

theorem writtenItems_of_areFree (iterator other : Nat → Json) : ∀ items : List (Value F),
    areFree items = true → writtenItems iterator items = writtenItems other items
  | [], _ => rfl
  | item :: rest, free => by
      simp only [areFree, Bool.and_eq_true] at free
      rw [writtenItems, writtenItems, writtenWith_of_isFree iterator other item free.1,
        writtenItems_of_areFree iterator other rest free.2]

theorem writtenEntries_of_free (iterator other : Nat → Json) :
    ∀ entries : List (Value F × Value F), entriesFree entries = true →
      writtenEntries iterator entries = writtenEntries other entries
  | [], _ => rfl
  | (key, content) :: rest, free => by
      simp only [entriesFree, Bool.and_eq_true] at free
      rw [writtenEntries, writtenEntries, writtenWith_of_isFree iterator other key free.1.1,
        writtenWith_of_isFree iterator other content free.1.2,
        writtenEntries_of_free iterator other rest free.2]

end

end Value

namespace Target

mutual

/-- A value whose iterators all sit where the target sends them to a sequence, directly or through
bundles of the target's own shape. -/
def Delivers : Target → Value F → Prop
  | .sequence _ _, value =>
      match value with
      | .iterator _ => True
      | value => value.isFree = true
  | .tuple parts, value =>
      match value with
      | .bundle components => Value.areFree components = true ∨ DeliversAll parts components
      | value => value.isFree = true
  | _, value => value.isFree = true

def DeliversAll : List Target → List (Value F) → Prop
  | [], [] => True
  | part :: parts, component :: components =>
      Delivers part component ∧ DeliversAll parts components
  | _, _ => False

end

/-- An eager monad whose items the target takes so. -/
def DeliversMonad (target : Target) : Value F → Prop
  | .listMonad _ _ items => ∀ item ∈ items, target.Delivers item
  | .just _ content => target.Delivers content
  | .nothing _ => True
  | _ => False

theorem delivers_of_isFree (target : Target) {value : Value F} (free : value.isFree = true) :
    target.Delivers value := by
  cases target with
  | sequence key name => cases value <;> trivial
  | tuple parts =>
      cases value with
      | bundle components => exact Or.inl free
      | _ => exact free
  | _ => exact free

mutual

theorem Delivers.isFree : ∀ {target : Target} {value : Value F}, target.Delivers value →
    target.hasSequence = false → value.isFree = true
  | .discard, _, delivers, _ | .slot _ _, _, delivers, _ | .external _ _ _, _, delivers, _
  | .unusable _ _, _, delivers, _ => delivers
  | .sequence _ _, _, _, absent => by simp [hasSequence] at absent
  | .tuple parts, value, delivers, absent => by
      cases value with
      | bundle components =>
          rcases delivers with free | each
          · exact free
          · exact DeliversAll.areFree each absent
      | _ => exact delivers

theorem DeliversAll.areFree : ∀ {parts : List Target} {components : List (Value F)},
    DeliversAll parts components → anyHasSequence parts = false →
      Value.areFree components = true
  | [], [], _, _ => rfl
  | part :: parts, component :: components, each, absent => by
      simp only [anyHasSequence, Bool.or_eq_false_iff] at absent
      rw [Value.areFree, Delivers.isFree each.1 absent.1, DeliversAll.areFree each.2 absent.2]
      rfl
  | [], _ :: _, each, _ => each.elim
  | _ :: _, [], each, _ => each.elim

end

theorem DeliversAll.length_eq : ∀ {parts : List Target} {components : List (Value F)},
    DeliversAll parts components → components.length = parts.length
  | [], [], _ => rfl
  | _ :: _, _ :: _, each => by simp [each.2.length_eq]
  | [], _ :: _, each => each.elim
  | _ :: _, [], each => each.elim

end Target

/-- The state after all items of some iterators have been taken. -/
def World.drained (world : World F σ) (numbers : List Nat) : World F σ :=
  { world with
    supplies := numbers.foldl (fun supplies number => supplies.set number { items := [] })
      world.supplies }

theorem World.drained_append (world : World F σ) (first second : List Nat) :
    world.drained (first ++ second) = (world.drained first).drained second := by
  simp only [drained, List.foldl_append]

@[simp] theorem World.length_supplies_drained (world : World F σ) (numbers : List Nat) :
    (world.drained numbers).supplies.length = world.supplies.length := by
  induction numbers generalizing world with
  | nil => rfl
  | cons number rest ih =>
      have drained := ih (world.drained [number])
      simpa only [← drained_append, List.singleton_append, World.drained, List.foldl_cons,
        List.foldl_nil, List.length_set] using drained

theorem World.supplies_drained_of_not_mem (world : World F σ) {number : Nat} {numbers : List Nat}
    (absent : number ∉ numbers) :
    (world.drained numbers).supplies[number]? = world.supplies[number]? := by
  induction numbers generalizing world with
  | nil => rfl
  | cons head rest ih =>
      rw [List.mem_cons, not_or] at absent
      have drained := ih (world.drained [head]) absent.2
      rw [← drained_append, List.singleton_append] at drained
      rw [drained, World.drained, List.foldl_cons, List.foldl_nil,
        List.getElem?_set_ne (Ne.symm absent.1)]

theorem outcome_sequenceItems_iterator {world : World F σ} {number : Nat} {items : List (Value F)}
    (present : world.supplies[number]? = some { items }) :
    (sequenceItems (.iterator number)).outcome world = (.ok items, world.drained [number]) := by
  simp only [sequenceItems, drain, outcome_bind, outcome_get, present, outcome_modify]
  rfl

theorem exists_sequenceItems_of_isFree {value : Value F} (free : value.isFree = true) :
    ∃ items, Value.areFree items = true ∧
      (sequenceItems value : Action F σ (List (Value F))) = pure items := by
  have alone : Value.areFree [value] = true := by simp [Value.areFree, free]
  cases value with
  | iterator number => simp [Value.isFree] at free
  | list items => exact ⟨items, free, rfl⟩
  | tuple items => exact ⟨items, free, rfl⟩
  | bundle components => exact ⟨components, free, rfl⟩
  | dictionary entries =>
      refine ⟨entries.map (·.1), ?_, rfl⟩
      have keys : ∀ entries : List (Value F × Value F), Value.entriesFree entries = true →
          Value.areFree (entries.map (·.1)) = true := by
        intro entries each
        induction entries with
        | nil => rfl
        | cons entry rest ih =>
            simp only [Value.entriesFree, Bool.and_eq_true] at each
            simp [Value.areFree, each.1.1, ih each.2]
      exact keys entries free
  | buffer octets =>
      refine ⟨octets.map fun octet => .int octet.toNat, ?_, rfl⟩
      simp [Value.areFree_iff, Value.isFree]
  | _ => exact ⟨_, alone, rfl⟩

mutual

theorem exists_settle_of_isFree : ∀ (target : Target) (value : Value F), value.isFree = true →
    ∃ settled, settled.isFree = true ∧ (settle target value : Action F σ (Value F)) = pure settled
  | .sequence _ _, value, free => by
      obtain ⟨items, itemsFree, taken⟩ := exists_sequenceItems_of_isFree (σ := σ) free
      exact ⟨.list items, itemsFree, by rw [settle, taken, pure_bind]⟩
  | .tuple parts, value, free => by
      cases value with
      | bundle components =>
          rw [settle]
          split
          · obtain ⟨settled, settledFree, each⟩ :=
              exists_settleAll_of_areFree parts components free
            exact ⟨.bundle settled, settledFree, by rw [each, pure_bind]⟩
          · exact ⟨.bundle components, free, rfl⟩
      | _ => exact ⟨_, free, by simp only [settle]⟩
  | .discard, value, free | .slot _ _, value, free | .external _ _ _, value, free
  | .unusable _ _, value, free => ⟨value, free, by simp only [settle]⟩

theorem exists_settleAll_of_areFree : ∀ (parts : List Target) (components : List (Value F)),
    Value.areFree components = true → ∃ settled, Value.areFree settled = true ∧
      (settleAll parts components : Action F σ (List (Value F))) = pure settled
  | part :: parts, component :: components, free => by
      simp only [Value.areFree, Bool.and_eq_true] at free
      obtain ⟨first, firstFree, settledFirst⟩ := exists_settle_of_isFree part component free.1
      obtain ⟨rest, restFree, settledRest⟩ := exists_settleAll_of_areFree parts components free.2
      refine ⟨first :: rest, ?_, ?_⟩
      · rw [Value.areFree, firstFree, restFree]
        rfl
      · rw [settleAll, settledFirst, settledRest, pure_bind, pure_bind]
  | [], _, _ => ⟨[], rfl, by rw [settleAll]; simp⟩
  | _ :: _, [], _ => ⟨[], rfl, by rw [settleAll]; simp⟩

end

/-- What becomes of a value where it is settled for a target: each of its iterators is drained, and
what comes out is what the lists of their items give. -/
def SettlesTo (σ : Type) (contents : Nat → List (Value F)) (target : Target)
    (value settled : Value F) : Prop :=
  (∀ world : World F σ,
    (settle target (value.listed contents)).outcome world = (.ok settled, world)) ∧
  ∀ world : World F σ, value.exposed.Nodup →
    (∀ number ∈ value.exposed, world.supplies[number]? = some { items := contents number }) →
      (settle target value).outcome world = (.ok settled, world.drained value.exposed)

theorem exists_settlesTo_of_isFree (contents : Nat → List (Value F)) (target : Target)
    {value : Value F} (free : value.isFree = true) :
    ∃ settled, settled.isFree = true ∧ SettlesTo σ contents target value settled := by
  obtain ⟨settled, settledFree, same⟩ := exists_settle_of_isFree (σ := σ) target value free
  refine ⟨settled, settledFree, ?_, ?_⟩
  · rw [Value.listed_of_isFree contents value free, same]
    exact fun world => rfl
  · rw [Value.exposed_of_isFree value free, same]
    exact fun world _ _ => rfl

mutual

/-- A value that is delivered settles to a value without iterators. -/
theorem exists_settlesTo (contents : Nat → List (Value F)) : ∀ (target : Target) (value : Value F),
    target.Delivers value → (∀ number ∈ value.exposed, Value.areFree (contents number) = true) →
      ∃ settled, settled.isFree = true ∧ SettlesTo σ contents target value settled
  | .sequence _ _, value, delivers, known => by
      cases value with
      | iterator number =>
          refine ⟨.list (contents number), known number (by simp [Value.exposed]), ?_, ?_⟩
          · exact fun world => rfl
          · intro world _ present
            have taken := outcome_sequenceItems_iterator (present number (by simp [Value.exposed]))
            rw [settle, outcome_bind, taken]
            rfl
      | _ => exact exists_settlesTo_of_isFree contents _ delivers
  | .tuple parts, value, delivers, known => by
      cases value with
      | bundle components =>
          rcases delivers with free | each
          · exact exists_settlesTo_of_isFree contents _ free
          · obtain ⟨settled, settledFree, listed, drained⟩ :=
              exists_settlesAllTo contents parts components each known
            have fits := each.length_eq
            refine ⟨.bundle settled, settledFree, ?_, ?_⟩
            · intro world
              rw [Value.listed, settle, if_pos (by rwa [Value.allListed_eq_map, List.length_map]),
                outcome_bind, listed]
              rfl
            · intro world distinct present
              rw [settle, if_pos fits, outcome_bind, drained world distinct present]
              rfl
      | _ => exact exists_settlesTo_of_isFree contents _ delivers
  | .discard, _, delivers, _ | .slot _ _, _, delivers, _ | .external _ _ _, _, delivers, _
  | .unusable _ _, _, delivers, _ => exists_settlesTo_of_isFree contents _ delivers

theorem exists_settlesAllTo (contents : Nat → List (Value F)) :
    ∀ (parts : List Target) (components : List (Value F)), Target.DeliversAll parts components →
      (∀ number ∈ Value.allExposed components, Value.areFree (contents number) = true) →
        ∃ settled, Value.areFree settled = true ∧
          (∀ world : World F σ,
            (settleAll parts (Value.allListed contents components)).outcome world =
              (.ok settled, world)) ∧
          ∀ world : World F σ, (Value.allExposed components).Nodup →
            (∀ number ∈ Value.allExposed components,
              world.supplies[number]? = some { items := contents number }) →
            (settleAll parts components).outcome world =
              (.ok settled, world.drained (Value.allExposed components))
  | [], [], _, _ => ⟨[], rfl, fun _ => rfl, fun _ _ _ => rfl⟩
  | part :: parts, component :: components, each, known => by
      simp only [Value.allExposed, List.mem_append] at known
      obtain ⟨first, firstFree, listedFirst, drainedFirst⟩ := exists_settlesTo contents part
        component each.1 fun number member => known number (Or.inl member)
      obtain ⟨rest, restFree, listedRest, drainedRest⟩ := exists_settlesAllTo contents parts
        components each.2 fun number member => known number (Or.inr member)
      refine ⟨first :: rest, ?_, ?_, ?_⟩
      · rw [Value.areFree, firstFree, restFree]
        rfl
      · intro world
        simp only [Value.allListed, settleAll, outcome_bind, listedFirst, listedRest, outcome_pure]
      · intro world distinct present
        simp only [Value.allExposed, List.mem_append] at distinct present ⊢
        obtain ⟨distinctFirst, distinctRest, apart⟩ := List.nodup_append.mp distinct
        have left := drainedFirst world distinctFirst fun number member =>
          present number (Or.inl member)
        have right := drainedRest (world.drained component.exposed) distinctRest
          fun number member => by
            rw [World.supplies_drained_of_not_mem world fun earlier => apart _ earlier _ member rfl]
            exact present number (Or.inr member)
        simp only [settleAll, outcome_bind, left, right, outcome_pure, World.drained_append]
  | [], _ :: _, each, _ => each.elim
  | _ :: _, [], each, _ => each.elim

end

/-- An action neither looks at what iterators have left nor at what functions keep, and leaves both
as they are. -/
def Indifferent (action : Action F σ α) : Prop :=
  ∀ (world : World F σ) (supplies : List (Supply F)) (client : σ),
    action.outcome { world with supplies, client } =
      ((action.outcome world).1, { (action.outcome world).2 with supplies, client })

theorem indifferent_pure (value : α) : Indifferent (pure value : Action F σ α) :=
  fun _ _ _ => rfl

theorem indifferent_throw (error : Error) : Indifferent (throw error : Action F σ α) :=
  fun _ _ _ => rfl

theorem indifferent_modify {change : World F σ → World F σ}
    (same : ∀ (world : World F σ) (supplies : List (Supply F)) (client : σ),
      change { world with supplies, client } = { change world with supplies, client }) :
    Indifferent (modify change : Action F σ PUnit) := by
  intro world supplies client
  rw [outcome_modify, outcome_modify, same]

theorem Indifferent.bind {action : Action F σ α} {next : α → Action F σ β}
    (first : Indifferent action) (rest : ∀ value, Indifferent (next value)) :
    Indifferent (action >>= next) := by
  intro world supplies client
  rw [outcome_bind, outcome_bind, first]
  rcases action.outcome world with ⟨error | value, after⟩
  · rfl
  · exact rest value after supplies client

theorem Indifferent.ite {condition : Prop} [Decidable condition] {accepted refused : Action F σ α}
    (first : Indifferent accepted) (second : Indifferent refused) :
    Indifferent (if condition then accepted else refused) := by
  split
  · exact first
  · exact second

theorem indifferent_record (event : Event) : Indifferent (record event : Action F σ PUnit) :=
  indifferent_modify fun _ _ _ => rfl

theorem indifferent_recordApplied (traced : Bool) (operation : Operation)
    (items : List (Value F)) :
    Indifferent (recordApplied traced operation items : Action F σ PUnit) :=
  (indifferent_record _).ite (indifferent_pure _)

theorem indifferent_captured (key : String) {value : Value F} (free : value.isFree = true) :
    Indifferent (do Action.record (.captured key ((← get).written value)) : Action F σ PUnit) := by
  intro world supplies client
  have written : ({ world with supplies, client } : World F σ).written value =
      world.written value :=
    Value.writtenWith_of_isFree _ _ value free
  simp only [outcome_bind, outcome_get, written]
  rfl

mutual

theorem indifferent_deposit : ∀ (target : Target) (value : Value F), value.isFree = true →
    Indifferent (deposit target value : Action F σ PUnit)
  | .discard, _, _ => by
      rw [deposit]
      exact indifferent_pure _
  | .slot _ _, _, _ => by
      rw [deposit]
      exact indifferent_modify fun _ _ _ => rfl
  | .sequence _ _, value, free => by
      obtain ⟨items, -, taken⟩ := exists_sequenceItems_of_isFree (σ := σ) free
      rw [deposit, taken, pure_bind]
      exact indifferent_modify fun _ _ _ => rfl
  | .external key _ hook, value, free => by
      rw [deposit]
      cases hook value.typeName value.likeness with
      | some message =>
          rw [send, ← bind_assoc]
          exact (indifferent_captured key free).bind fun _ => indifferent_throw _
      | none =>
          rw [send, ← bind_assoc]
          exact (indifferent_captured key free).bind fun _ => indifferent_modify fun _ _ _ => rfl
  | .tuple parts, value, free => by
      cases value with
      | bundle components =>
          rw [deposit]
          exact (indifferent_depositAll parts components free).ite (indifferent_throw _)
      | _ =>
          simp only [deposit]
          exact indifferent_throw _
  | .unusable _ _, _, _ => by
      rw [deposit]
      exact indifferent_throw _

theorem indifferent_depositAll : ∀ (parts : List Target) (components : List (Value F)),
    Value.areFree components = true →
      Indifferent (depositAll parts components : Action F σ PUnit)
  | part :: parts, component :: components, free => by
      simp only [Value.areFree, Bool.and_eq_true] at free
      rw [depositAll]
      exact (indifferent_deposit part component free.1).bind fun _ =>
        indifferent_depositAll parts components free.2
  | [], _, _ => by
      rw [depositAll]
      · exact indifferent_pure _
      · simp
  | _ :: _, [], _ => by
      rw [depositAll]
      · exact indifferent_pure _
      · simp

end

theorem indifferent_currentStep (ref : StepRef) :
    Indifferent (currentStep ref : Action F σ (Step F)) := by
  intro world supplies client
  have same : ({ world with supplies, client } : World F σ).step? ref = world.step? ref := rfl
  simp only [currentStep, outcome_bind, outcome_get, same]
  cases world.step? ref <;> rfl

theorem indifferent_checkBlockPlace (total : Nat) (refs : List StepRef) (index : Nat) :
    Indifferent (checkBlockPlace total refs index : Action F σ PUnit) := by
  induction refs generalizing index with
  | nil => exact indifferent_pure _
  | cons ref rest ih =>
      cases rest with
      | nil => exact indifferent_pure _
      | cons next others =>
          exact (indifferent_currentStep ref).bind fun _ =>
            (indifferent_throw _).ite (ih (index + 1))

theorem indifferent_checkStructure (refs : List StepRef) :
    Indifferent (checkStructure refs : Action F σ PUnit) := by
  cases refs with
  | nil => exact indifferent_throw _
  | cons ref rest => exact indifferent_checkBlockPlace _ _ _

/-- No target holds an iterator. -/
structure World.Clear (world : World F σ) : Prop where
  slot : ∀ key, (world.slot key).isFree = true
  sequence : ∀ key, Value.areFree (world.sequence key) = true
  received : ∀ key, Value.areFree (world.receivedBy key) = true

theorem World.Clear.setSlot {world : World F σ} (clear : world.Clear) (key : String)
    {value : Value F} (free : value.isFree = true) : (world.setSlot key value).Clear := by
  refine ⟨fun other => ?_, clear.sequence, clear.received⟩
  rw [slot_setSlot]
  split
  · exact free
  · exact clear.slot other

theorem World.Clear.setSequence {world : World F σ} (clear : world.Clear) (key : String)
    {items : List (Value F)} (free : Value.areFree items = true) :
    (world.setSequence key items).Clear := by
  refine ⟨clear.slot, fun other => ?_, clear.received⟩
  rw [sequence_setSequence]
  split
  · exact free
  · exact clear.sequence other

theorem World.Clear.receive {world : World F σ} (clear : world.Clear) (key : String)
    {value : Value F} (free : value.isFree = true) : (world.receive key value).Clear := by
  refine ⟨clear.slot, clear.sequence, fun other => ?_⟩
  rw [receivedBy_receive]
  split
  · rw [Value.areFree_iff]
    intro item member
    rcases List.mem_append.mp member with earlier | last
    · exact (Value.areFree_iff _).mp (clear.received key) item earlier
    · rwa [List.mem_singleton.mp last]
  · exact clear.received other

mutual

theorem clear_deposit : ∀ (target : Target) (value : Value F), value.isFree = true →
    Preserves World.Clear (deposit target value : Action F σ PUnit)
  | .discard, _, _ => by
      rw [deposit]
      exact preserves_pure _
  | .slot key _, _, free => by
      rw [deposit]
      exact preserves_modify fun _ clear => clear.setSlot key free
  | .sequence key _, value, free => by
      obtain ⟨items, itemsFree, taken⟩ := exists_sequenceItems_of_isFree (σ := σ) free
      rw [deposit, taken, pure_bind]
      exact preserves_modify fun _ clear => clear.setSequence key itemsFree
  | .external key _ hook, value, free => by
      have recorded : ∀ world : World F σ, Preserves World.Clear
          (record (.captured key (world.written value)) : Action F σ PUnit) :=
        fun _ => preserves_modify fun _ clear => ⟨clear.slot, clear.sequence, clear.received⟩
      rw [deposit]
      cases hook value.typeName value.likeness with
      | some message =>
          exact preserves_get.bind fun world => (recorded world).bind fun _ => preserves_throw _
      | none =>
          exact preserves_get.bind fun world => (recorded world).bind fun _ =>
            preserves_modify fun _ clear => clear.receive key free
  | .tuple parts, value, free => by
      cases value with
      | bundle components =>
          rw [deposit]
          exact (clear_depositAll parts components free).ite (preserves_throw _)
      | _ =>
          simp only [deposit]
          exact preserves_throw _
  | .unusable _ _, _, _ => by
      rw [deposit]
      exact preserves_throw _

theorem clear_depositAll : ∀ (parts : List Target) (components : List (Value F)),
    Value.areFree components = true →
      Preserves World.Clear (depositAll parts components : Action F σ PUnit)
  | part :: parts, component :: components, free => by
      simp only [Value.areFree, Bool.and_eq_true] at free
      rw [depositAll]
      exact (clear_deposit part component free.1).bind fun _ =>
        clear_depositAll parts components free.2
  | [], _, _ => by
      rw [depositAll]
      · exact preserves_pure _
      · simp
  | _ :: _, [], _ => by
      rw [depositAll]
      · exact preserves_pure _
      · simp

end

end Bindery
