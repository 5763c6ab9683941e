import Bindery.Proofs.Agreement
import Bindery.Proofs.Discards
import Bindery.Proofs.EarlyExit
import Bindery.Proofs.Settling

set_option autoImplicit false

namespace Bindery

open Bindery.Action

variable {F σ : Type}

/-- Keep the items that pass a filter, settled first, whatever the target is. -/
def settleAndFilter (meaning : Meaning F σ) (index : Nat) (target : Target)
    (predicate : Callback F) (value : Value F) : Action F σ (Value F) := do
  requireMonadLike index value
  let settled ← meaning.map (.settle target) (settle target) value
  requireMonadLike index settled
  meaning.filter (.test target predicate) (testItem meaning target predicate) settled

/-- Keep the items that pass a filter as they come, whatever the target is. -/
def filterUnsettled (meaning : Meaning F σ) (index : Nat) (target : Target)
    (predicate : Callback F) (value : Value F) : Action F σ (Value F) := do
  requireMonadLike index value
  meaning.filter (.test target predicate) (testItem meaning target predicate) value

theorem applyFilter_eq (meaning : Meaning F σ) (index : Nat) (target : Target)
    (predicate : Callback F) (value : Value F) :
    applyFilter meaning index target predicate value =
      if target.hasSequence then settleAndFilter meaning index target predicate value
      else filterUnsettled meaning index target predicate value := by
  cases sequence : target.hasSequence <;>
    simp [applyFilter, settleAndFilter, filterUnsettled, sequence]

namespace Value

/-- A list monad that is not traced, an optional value or a deferred list. -/
inductive IsUntraced : Value F → Prop
  | listMonad (number : Option Nat) (items : List (Value F)) :
      IsUntraced (.listMonad number false items)
  | just (number : Option Nat) (content : Value F) : IsUntraced (.just number content)
  | nothing (number : Option Nat) : IsUntraced (.nothing number)
  | deferred (number : Option Nat) (items : List (Value F)) (stages : List (Stage F)) :
      IsUntraced (.deferred number items stages)

/-- Two monads that differ in their identity at most. Deferred lists run alike when they are forced,
with any stages that may still be added to them. -/
inductive Interchangeable (meaning : Meaning F σ) : Value F → Value F → Prop
  | same (value : Value F) : Interchangeable meaning value value
  | just (number other : Option Nat) (content : Value F) :
      Interchangeable meaning (.just number content) (.just other content)
  | deferred (number other : Option Nat) (items : List (Value F)) (stages others : List (Stage F))
      (forced : ∀ fuel later, force meaning fuel (.deferred number items (stages ++ later)) =
        force meaning fuel (.deferred other items (others ++ later))) :
      Interchangeable meaning (.deferred number items stages) (.deferred other items others)

/-- The items that a monad holds, a deferred list being forced for them. -/
def held (meaning : Meaning F σ) : Value F → Action F σ (List (Value F))
  | .just _ content => return [content]
  | .nothing _ => return []
  | value => value.force meaning 1

end Value

theorem collect_of_pure {run : ItemAction F σ} (items : List (Value F))
    (each : ∀ item, run item = pure item) : collect run items = pure items := by
  induction items with
  | nil => rfl
  | cons item rest ih => simp [collect, each, ih]

section Filters

variable (call : F → Option (Value F) → Action F σ (Value F)) (index : Nat) (target : Target)
  (predicate : Callback F)

theorem settleAndFilter_listMonad (number : Option Nat) (items : List (Value F)) :
    settleAndFilter (.standard call) index target predicate (.listMonad number false items) =
      collect (settle target) items >>= fun settled =>
        retain (testItem (.standard call) target predicate) settled >>= fun kept =>
          pure (.listMonad none false kept) := by
  simp [settleAndFilter, Meaning.standard, Value.map, Value.filter, recordApplied]

theorem settleAndFilter_just (number : Option Nat) (content : Value F) :
    settleAndFilter (.standard call) index target predicate (.just number content) =
      settle target content >>= fun settled =>
        testItem (.standard call) target predicate settled >>= fun verdict =>
          pure (if verdict.isTrue then .just none settled else .nothing none) := by
  simp [settleAndFilter, Meaning.standard, Value.map, Value.filter]

theorem settleAndFilter_nothing (number : Option Nat) :
    settleAndFilter (.standard call) index target predicate (.nothing number) =
      pure (.nothing none) := by
  simp [settleAndFilter, Meaning.standard, Value.map, Value.filter]

theorem settleAndFilter_deferred (number : Option Nat) (items : List (Value F))
    (stages : List (Stage F)) :
    settleAndFilter (.standard call) index target predicate (.deferred number items stages) =
      pure (.deferred none items
        (stages ++ [⟨.map, .settle target⟩, ⟨.filter, .test target predicate⟩])) := by
  simp [settleAndFilter, Meaning.standard, Value.map, Value.filter]

theorem filterUnsettled_listMonad (number : Option Nat) (items : List (Value F)) :
    filterUnsettled (.standard call) index target predicate (.listMonad number false items) =
      retain (testItem (.standard call) target predicate) items >>= fun kept =>
        pure (.listMonad none false kept) := by
  simp [filterUnsettled, Meaning.standard, Value.filter, recordApplied]

theorem filterUnsettled_just (number : Option Nat) (content : Value F) :
    filterUnsettled (.standard call) index target predicate (.just number content) =
      testItem (.standard call) target predicate content >>= fun verdict =>
        pure (if verdict.isTrue then .just number content else .nothing none) := by
  simp [filterUnsettled, Meaning.standard, Value.filter]

theorem filterUnsettled_nothing (number : Option Nat) :
    filterUnsettled (.standard call) index target predicate (.nothing number) =
      pure (.nothing none) := by
  simp [filterUnsettled, Meaning.standard, Value.filter]

theorem filterUnsettled_deferred (number : Option Nat) (items : List (Value F))
    (stages : List (Stage F)) :
    filterUnsettled (.standard call) index target predicate (.deferred number items stages) =
      pure (.deferred none items (stages ++ [⟨.filter, .test target predicate⟩])) := by
  simp [filterUnsettled, Meaning.standard, Value.filter]

end Filters

/-- Two ends that differ in the identity of a monad at most: the results are interchangeable or the
errors are the same, and so are the states that were reached. -/
def SameEnds (meaning : Meaning F σ) (first second : Action F σ (Value F)) (world : World F σ) :
    Prop :=
  Together first second world world
    (fun kept after other last => Value.Interchangeable meaning kept other ∧ after = last)
    fun error after other last => error = other ∧ after = last

theorem sameEnds_self (meaning : Meaning F σ) (action : Action F σ (Value F))
    (world : World F σ) : SameEnds meaning action action world := by
  have ends : action.Ends world (fun _ _ => True) fun _ _ => True :=
    Ends.of_forall (fun _ _ => trivial) fun _ _ => trivial
  exact Together.of_ends ends (fun value _ _ => ⟨.same value, rfl⟩) fun _ _ _ => ⟨rfl, rfl⟩

/-- Where the target has no sequence, a filter that always settles does what one that never settles
does. -/
theorem sameEnds_of_not_hasSequence (call : F → Option (Value F) → Action F σ (Value F))
    (index : Nat) {target : Target} (predicate : Callback F) {value : Value F}
    (absent : target.hasSequence = false) (monad : value.IsUntraced) (world : World F σ) :
    SameEnds (.standard call) (filterUnsettled (.standard call) index target predicate value)
      (settleAndFilter (.standard call) index target predicate value) world := by
  have settles : ∀ item, (settle target item : Action F σ (Value F)) = pure item :=
    fun item => settle_of_not_hasSequence target item absent
  cases monad with
  | listMonad number items =>
      rw [filterUnsettled_listMonad, settleAndFilter_listMonad, collect_of_pure items settles,
        pure_bind]
      exact sameEnds_self _ _ world
  | just number content =>
      rw [filterUnsettled_just, settleAndFilter_just, settles, pure_bind]
      have tested : (testItem (.standard call) target predicate content).Ends world
          (fun _ _ => True) fun _ _ => True :=
        Ends.of_forall (fun _ _ => trivial) fun _ _ => trivial
      refine Together.bind (Together.of_ends tested ?_ fun _ _ _ => ⟨rfl, rfl⟩)
      intro verdict after _
      cases truth : verdict.isTrue with
      | true => exact together_of_ok rfl rfl ⟨.just number none content, rfl⟩
      | false => exact together_of_ok rfl rfl ⟨.same _, rfl⟩
  | nothing number =>
      rw [filterUnsettled_nothing, settleAndFilter_nothing]
      exact sameEnds_self _ _ world
  | deferred number items stages =>
      rw [filterUnsettled_deferred, settleAndFilter_deferred]
      refine together_of_ok rfl rfl ⟨.deferred _ _ _ _ _ ?_, rfl⟩
      intro fuel later
      cases fuel with
      | zero => rfl
      | succ fuel =>
          have idle : ∀ reached, collect (fun item =>
              (Continuation.settle target).apply (.standard call) item) reached =
                (pure reached : Action F σ (List (Value F))) :=
            fun reached => collect_of_pure reached settles
          simp only [Value.force, Value.runStages_append, Value.runStages, Value.runStage, idle,
            pure_bind]

namespace Target

mutual

theorem exists_sequence_mem_leaves : ∀ target : Target, target.hasSequence = true →
    ∃ key name, .sequence key name ∈ target.leaves
  | .sequence key name, _ => ⟨key, name, List.mem_singleton.mpr rfl⟩
  | .tuple parts, present => exists_sequence_mem_allLeaves parts present
  | .discard, present | .slot _ _, present | .external _ _ _, present
  | .unusable _ _, present => by simp [hasSequence] at present

theorem exists_sequence_mem_allLeaves : ∀ parts : List Target, anyHasSequence parts = true →
    ∃ key name, .sequence key name ∈ allLeaves parts
  | [], present => by simp [anyHasSequence] at present
  | part :: parts, present => by
      rw [anyHasSequence, Bool.or_eq_true] at present
      simp only [allLeaves, List.mem_append]
      rcases present with here | later
      · obtain ⟨key, name, member⟩ := exists_sequence_mem_leaves part here
        exact ⟨key, name, Or.inl member⟩
      · obtain ⟨key, name, member⟩ := exists_sequence_mem_allLeaves parts later
        exact ⟨key, name, Or.inr member⟩

end

mutual

theorem exists_arrivals_eq : ∀ (target : Target) (values : List (Value F)),
    values.length = target.leaves.length →
      ∃ value, target.arrivals value = List.zipWith Arrival.mk target.leaves values
  | .tuple parts, values, length => by
      obtain ⟨components, same, arriving⟩ := exists_allArrivals_eq parts values length
      exact ⟨.bundle components, by rw [arrivals, if_pos same]; exact arriving⟩
  | .discard, [value], _ | .slot _ _, [value], _ | .sequence _ _, [value], _
  | .external _ _ _, [value], _ | .unusable _ _, [value], _ => ⟨value, rfl⟩

theorem exists_allArrivals_eq : ∀ (parts : List Target) (values : List (Value F)),
    values.length = (allLeaves parts).length →
      ∃ components : List (Value F), components.length = parts.length ∧
        allArrivals parts components = List.zipWith Arrival.mk (allLeaves parts) values
  | [], _, _ => ⟨[], rfl, rfl⟩
  | part :: parts, values, length => by
      rw [allLeaves, List.length_append] at length
      obtain ⟨first, here⟩ := exists_arrivals_eq part (values.take part.leaves.length) (by
        rw [List.length_take]
        omega)
      obtain ⟨rest, same, later⟩ := exists_allArrivals_eq parts (values.drop part.leaves.length) (by
        rw [List.length_drop]
        omega)
      refine ⟨first :: rest, congrArg Nat.succ same, ?_⟩
      have split : values = values.take part.leaves.length ++ values.drop part.leaves.length :=
        (List.take_append_drop _ values).symm
      rw [allArrivals, here, later, allLeaves]
      conv_rhs => rw [split]
      rw [List.zipWith_append]
      rw [List.length_take]
      omega

end

theorem exists_last_sequence {target : Target} (present : target.hasSequence = true) :
    ∃ front key name back, target.leaves = front ++ .sequence key name :: back ∧
      ∀ leaf ∈ back, leaf.hasSequence = false := by
  obtain ⟨key, name, member⟩ := exists_sequence_mem_leaves target present
  have found : (target.leaves.reverse.find? hasSequence).isSome := by
    rw [List.find?_isSome]
    exact ⟨.sequence key name, List.mem_reverse.mpr member, rfl⟩
  obtain ⟨last, same⟩ := Option.isSome_iff_exists.mp found
  obtain ⟨sequential, later, earlier, split, none⟩ := List.find?_eq_some_iff_append.mp same
  have leaves : target.leaves = earlier.reverse ++ last :: later.reverse := by
    rw [← List.reverse_reverse target.leaves, split]
    simp
  have among : last ∈ target.leaves := by
    rw [leaves]
    exact List.mem_append_right _ List.mem_cons_self
  cases last with
  | sequence key name =>
      refine ⟨earlier.reverse, key, name, later.reverse, leaves, ?_⟩
      intro leaf behind
      simpa using none leaf (List.mem_reverse.mp behind)
  | tuple parts => exact absurd among (ne_tuple_of_mem_leaves target parts)
  | _ => simp [hasSequence] at sequential

mutual

theorem fits_of_accepted {supplies : List (Supply F)} : ∀ (target : Target) (value : Value F),
    (∀ arrival ∈ target.arrivals value, arrival.refusal? supplies = none) → target.Fits value
  | .tuple parts, value, accepted => by
      cases value with
      | bundle components =>
          rw [arrivals] at accepted
          split at accepted
          · rename_i same
            exact takesAll_of_accepted parts components same accepted
          · simp [Arrival.refusal?] at accepted
      | _ => simp [arrivals, Arrival.refusal?] at accepted
  | .discard, _, _ | .slot _ _, _, _ | .sequence _ _, _, _ | .external _ _ _, _, _
  | .unusable _ _, _, _ => trivial

theorem takesAll_of_accepted {supplies : List (Supply F)} : ∀ (parts : List Target)
    (components : List (Value F)), components.length = parts.length →
    (∀ arrival ∈ allArrivals parts components, arrival.refusal? supplies = none) →
      TakesAll (fun _ _ => True) parts components
  | [], [], _, _ => trivial
  | part :: parts, component :: components, same, accepted => by
      rw [allArrivals, List.forall_mem_append] at accepted
      exact ⟨fits_of_accepted part component accepted.1,
        takesAll_of_accepted parts components (Nat.succ.inj same) accepted.2⟩
  | [], _ :: _, same, _ => by simp at same
  | _ :: _, [], same, _ => by simp at same

end

end Target

theorem lastWrite_append (cell : Cell) (first second : Contents F) :
    lastWrite cell (first ++ second) = (lastWrite cell second).or (lastWrite cell first) := by
  rw [lastWrite, List.reverse_append, List.lookup_append]
  rfl

namespace Arrival

/-- The arrival of the null value in its place, save for an external target, which is sent what it
was sent. -/
def calmed : Arrival F → Arrival F
  | ⟨.external key name hook, value⟩ => ⟨.external key name hook, value⟩
  | ⟨target, _⟩ => ⟨target, .null⟩

@[simp] theorem target_calmed (arrival : Arrival F) : arrival.calmed.target = arrival.target := by
  obtain ⟨target, value⟩ := arrival
  cases target <;> rfl

theorem drawn_calmed (supplies : List (Supply F)) (arrival : Arrival F) :
    drawn supplies arrival.calmed = supplies := by
  obtain ⟨target, value⟩ := arrival
  cases target <;> rfl

theorem allDrawn_calmed (supplies : List (Supply F)) (arrivals : List (Arrival F)) :
    allDrawn supplies (arrivals.map calmed) = supplies := by
  induction arrivals with
  | nil => rfl
  | cons arrival rest ih =>
      rw [List.map_cons, allDrawn, List.foldl_cons, drawn_calmed]
      exact ih

theorem lastWrite_calmed (key : String) (supplies : List (Supply F))
    {arrivals : List (Arrival F)}
    (absent : ∀ arrival ∈ arrivals, arrival.target.hasSequence = false) :
    lastWrite (.sequence key) (allWrites supplies (arrivals.map calmed)) = none := by
  induction arrivals with
  | nil => rfl
  | cons arrival rest ih =>
      rw [List.forall_mem_cons] at absent
      rw [List.map_cons, allWrites, drawn_calmed, lastWrite_append, ih absent.2, Option.none_or]
      obtain ⟨target, value⟩ := arrival
      cases target with
      | sequence other name => simp [Target.hasSequence] at absent
      | slot other name => exact (lastWrite_singleton _ _ _).trans (if_neg (by simp))
      | _ => rfl

theorem refusal?_calmed {supplies : List (Supply F)} {arrival : Arrival F}
    (accepted : arrival.refusal? supplies = none) (other : List (Supply F)) :
    arrival.calmed.refusal? other = none := by
  obtain ⟨target, value⟩ := arrival
  cases target with
  | tuple parts => cases value <;> simp [refusal?] at accepted
  | sequence key name => rfl
  | _ => exact accepted

theorem quiet_calmed (supplies : List (Supply F)) (arrival : Arrival F) :
    arrival.calmed.Quiet supplies := by
  obtain ⟨target, value⟩ := arrival
  cases target with
  | sequence key name => rfl
  | _ => trivial

theorem zipWith_calmed (arrivals : List (Arrival F)) :
    List.zipWith Arrival.mk (arrivals.map Arrival.target)
      (arrivals.map fun arrival => arrival.calmed.value) = arrivals.map calmed := by
  induction arrivals with
  | nil => rfl
  | cons arrival rest ih =>
      rw [List.map_cons, List.map_cons, List.zipWith_cons_cons, ih, List.map_cons,
        ← target_calmed arrival]

end Arrival

namespace Target

/-- A value that sends the first iterator to the last sequence of a target, and to all its other
leaves what a given value sends them when it is calmed. -/
def Draws (target : Target) (key : String) (value item : Value F) : Prop :=
  ∃ front name own back,
    target.arrivals value = front ++ ⟨.sequence key name, own⟩ :: back ∧
    (∀ arrival ∈ back, arrival.target.hasSequence = false) ∧
    target.arrivals item =
      front.map Arrival.calmed ++ ⟨.sequence key name, .iterator 0⟩ :: back.map Arrival.calmed

theorem exists_draws {target : Target} (present : target.hasSequence = true) {value : Value F}
    (fits : target.Fits value) : ∃ key item, target.Draws key value item := by
  obtain ⟨front, key, name, back, leaves, last⟩ := exists_last_sequence present
  obtain ⟨before, rest, arriving, rfl, later⟩ :=
    List.map_eq_append_iff.mp ((target.map_target_arrivals value fits).trans leaves)
  obtain ⟨⟨_, own⟩, after, rfl, rfl, rfl⟩ := List.map_eq_cons_iff.mp later
  let values : List (Value F) := (before.map fun arrival => arrival.calmed.value) ++
    .iterator 0 :: after.map fun arrival => arrival.calmed.value
  obtain ⟨item, sent⟩ := exists_arrivals_eq target values (by simp [values, leaves])
  refine ⟨key, item, before, name, own, after, arriving, ?_, ?_⟩
  · exact List.forall_mem_map.mp last
  · rw [sent, leaves, List.zipWith_append (by simp), List.zipWith_cons_cons,
      Arrival.zipWith_calmed, Arrival.zipWith_calmed]

section Draws

variable {target : Target} {key : String} {value item : Value F}

theorem Draws.lastWrite (draws : target.Draws key value item) (supplies : List (Supply F)) :
    Bindery.lastWrite (.sequence key) (Arrival.allWrites supplies (target.arrivals item)) =
      some (.list ((Value.iterator 0).itemsIn supplies)) := by
  obtain ⟨front, name, own, back, -, last, arriving⟩ := draws
  rw [arriving, Arrival.allWrites_append, Arrival.allDrawn_calmed, Arrival.allWrites,
    lastWrite_append, lastWrite_append, Arrival.lastWrite_calmed key _ last, Option.none_or,
    Arrival.writes, lastWrite_singleton, if_pos rfl, Option.some_or]

theorem Draws.allDrawn (draws : target.Draws key value item) (supplies : List (Supply F)) :
    Arrival.allDrawn supplies (target.arrivals item) =
      supplies.modify 0 fun supply => { supply with items := [] } := by
  obtain ⟨front, name, own, back, -, -, arriving⟩ := draws
  rw [arriving, Arrival.allDrawn_append, Arrival.allDrawn_calmed, Arrival.allDrawn,
    List.foldl_cons]
  exact Arrival.allDrawn_calmed _ back

/-- Where a target can be written at all, it can be written from an iterator that does not fail. -/
theorem Draws.accepted (draws : target.Draws key value item) {before : List (Supply F)}
    (accepted : ∀ arrival ∈ target.arrivals value, arrival.refusal? before = none)
    {supplies : List (Supply F)} (quiet : supplies[0]?.bind Supply.failure = none) :
    ∀ arrival ∈ target.arrivals item, arrival.refusal? supplies = none := by
  obtain ⟨front, name, own, back, given, -, arriving⟩ := draws
  rw [given, List.forall_mem_append, List.forall_mem_cons] at accepted
  rw [arriving, List.forall_mem_append, List.forall_mem_cons, List.forall_mem_map,
    List.forall_mem_map]
  refine ⟨fun arrival member => Arrival.refusal?_calmed (accepted.1 arrival member) supplies, ?_,
    fun arrival member => Arrival.refusal?_calmed (accepted.2.2 arrival member) supplies⟩
  simp [Arrival.refusal?, quiet]

theorem Draws.quiet (draws : target.Draws key value item) {supplies : List (Supply F)}
    (quiet : supplies[0]?.bind Supply.failure = none) :
    ∀ arrival ∈ target.arrivals item, arrival.Quiet supplies := by
  obtain ⟨front, name, own, back, -, -, arriving⟩ := draws
  rw [arriving, List.forall_mem_append, List.forall_mem_cons, List.forall_mem_map,
    List.forall_mem_map]
  refine ⟨fun arrival _ => arrival.quiet_calmed supplies, ?_,
    fun arrival _ => arrival.quiet_calmed supplies⟩
  simp [Arrival.Quiet, Arrival.refusal?, quiet]

end Draws

end Target

section Single

variable (call : F → Option (Value F) → Action F σ (Value F)) (index : Nat) (target : Target)
  (predicate : Callback F) (item : Value F)

def Value.singles (item : Value F) : List (Value F) :=
  [.listMonad none false [item], .just none item, .deferred none [item] []]

theorem settleAndFilter_single : ∀ monad ∈ item.singles,
    (settleAndFilter (.standard call) index target predicate monad >>=
        Value.held (.standard call)) =
      settle target item >>= fun settled =>
        testItem (.standard call) target predicate settled >>= fun verdict =>
          pure (if verdict.isTrue then [settled] else []) := by
  rw [Value.singles, List.forall_mem_cons, List.forall_mem_cons, List.forall_mem_singleton]
  refine ⟨?_, ?_, ?_⟩
  · rw [settleAndFilter_listMonad]
    simp [collect, retain, Value.held, Value.force]
  · rw [settleAndFilter_just]
    simp only [bind_assoc, pure_bind]
    congr 1
    funext settled
    congr 1
    funext verdict
    cases verdict.isTrue <;> rfl
  · rw [settleAndFilter_deferred]
    simp [collect, retain, Value.held, Value.force, Value.runStages, Value.runStage,
      Continuation.apply]

theorem filterUnsettled_single : ∀ monad ∈ item.singles,
    (filterUnsettled (.standard call) index target predicate monad >>=
        Value.held (.standard call)) =
      testItem (.standard call) target predicate item >>= fun verdict =>
        pure (if verdict.isTrue then [item] else []) := by
  rw [Value.singles, List.forall_mem_cons, List.forall_mem_cons, List.forall_mem_singleton]
  refine ⟨?_, ?_, ?_⟩
  · rw [filterUnsettled_listMonad]
    simp [retain, Value.held, Value.force]
  · rw [filterUnsettled_just]
    simp only [bind_assoc, pure_bind]
    congr 1
    funext verdict
    cases verdict.isTrue <;> rfl
  · rw [filterUnsettled_deferred]
    simp [retain, Value.held, Value.force, Value.runStages, Value.runStage, Continuation.apply]

end Single

section Deposits

variable {target : Target} {key : String} {value item : Value F}

/-- A deposit of the value itself gives the sequence what the iterator has left, and leaves it
nothing. -/
theorem Target.Draws.outcome_deposit (draws : target.Draws key value item) {now : World F σ}
    (accepted : ∀ arrival ∈ target.arrivals item, arrival.refusal? now.supplies = none) :
    ∃ after, (deposit target item).outcome now = (.ok (), after) ∧
      after.content (.sequence key) = .list ((Value.iterator 0).itemsIn now.supplies) ∧
      after.supplies = now.supplies.modify 0 fun supply => { supply with items := [] } := by
  obtain ⟨after, ended, took⟩ := outcome_deposit_of_accepted accepted
  refine ⟨after, ended, ?_, ?_⟩
  · rw [took.held (.sequence key) (by simp), draws.lastWrite, Option.getD_some]
  · rw [took.supplies, draws.allDrawn]

/-- A deposit of what the value was settled to gives the sequence what the iterator had left at that
time. -/
theorem Target.Draws.outcome_deposit_settled (draws : target.Draws key value item) {kept : Value F}
    {supplies : List (Supply F)}
    (accepted : ∀ arrival ∈ target.arrivals item, arrival.refusal? supplies = none)
    (arriving : target.arrivals kept = Arrival.settleEach supplies (target.arrivals item))
    (now : World F σ) :
    ∃ after, (deposit target kept).outcome now = (.ok (), after) ∧
      after.content (.sequence key) = .list ((Value.iterator 0).itemsIn supplies) := by
  have acceptedNow : ∀ arrival ∈ target.arrivals kept, arrival.refusal? now.supplies = none := by
    rw [arriving]
    exact Arrival.refusal?_settleEach accepted now.supplies
  obtain ⟨after, ended, took⟩ := outcome_deposit_of_accepted acceptedNow
  refine ⟨after, ended, ?_⟩
  rw [took.held (.sequence key) (by simp), arriving, Arrival.allWrites_settleEach,
    draws.lastWrite, Option.getD_some]

end Deposits

theorem outcome_testItem_of_passes {call : F → Option (Value F) → Action F σ (Value F)} {body : F}
    (passes : ∀ argument, call body argument = pure (.bool true)) {target : Target}
    {item : Value F} {now after : World F σ}
    (ended : (deposit target item).outcome now = (.ok (), after)) :
    (testItem (.standard call) target (.function body) item).outcome now =
      (.ok (.bool true), after) := by
  rw [testItem, outcome_bind, ended]
  exact congrArg (outcome · after) (passes (some item))

def World.supplied (world : World F σ) : World F σ :=
  { world with supplies := [{ items := [.null] }] }

/-- Where a target with a sequence can be written at all, a filter that does not settle loses items:
what it keeps is deposited later without the items of the iterator, and what a filter that settles
keeps is deposited with them. -/
theorem exists_lost (call : F → Option (Value F) → Action F σ (Value F)) (index : Nat)
    {target : Target} (present : target.hasSequence = true) {body : F}
    (passes : ∀ argument, call body argument = pure (.bool true)) {value : Value F}
    {before written : World F σ}
    (writable : (deposit target value).outcome before = (.ok (), written)) (world : World F σ) :
    ∃ key item kept, ∀ monad ∈ Value.singles item, ∃ after last : World F σ,
      (settleAndFilter (.standard call) index target (.function body) monad >>=
          Value.held (.standard call)).outcome world.supplied = (.ok [kept], after) ∧
        ((deposit target kept).outcome after).2.content (.sequence key) = .list [.null] ∧
      (filterUnsettled (.standard call) index target (.function body) monad >>=
          Value.held (.standard call)).outcome world.supplied = (.ok [item], last) ∧
        ((deposit target item).outcome last).2.content (.sequence key) = .list [] := by
  have taken := accepted_of_outcome_deposit writable
  obtain ⟨key, item, draws⟩ :=
    Target.exists_draws present (target.fits_of_accepted value taken)
  have accepted : ∀ arrival ∈ target.arrivals item,
      arrival.refusal? world.supplied.supplies = none := draws.accepted taken rfl
  obtain ⟨kept, settles, arriving⟩ :=
    outcome_settle target item world.supplied (draws.quiet rfl)
  refine ⟨key, item, kept, ?_⟩
  intro monad single
  obtain ⟨after, first, -⟩ := draws.outcome_deposit_settled accepted arriving
    { world.supplied with
      supplies := Arrival.allDrawn world.supplied.supplies (target.arrivals item) }
  obtain ⟨final, again, filled⟩ := draws.outcome_deposit_settled accepted arriving after
  obtain ⟨last, firstBare, -, drained⟩ := draws.outcome_deposit accepted
  have quiet : last.supplies[0]?.bind Supply.failure = none := by rw [drained]; rfl
  have acceptedBare : ∀ arrival ∈ target.arrivals item,
      arrival.refusal? last.supplies = none := draws.accepted taken quiet
  obtain ⟨finalBare, againBare, emptied, -⟩ := draws.outcome_deposit acceptedBare
  refine ⟨after, last, ?_, ?_, ?_, ?_⟩
  · rw [settleAndFilter_single call index target _ item monad single, outcome_bind, settles]
    simp only [outcome_bind, outcome_testItem_of_passes passes first]
    rfl
  · rw [again]
    exact filled
  · rw [filterUnsettled_single call index target _ item monad single, outcome_bind,
      outcome_testItem_of_passes passes firstBare]
    rfl
  · rw [againBare, emptied, drained]
    rfl

theorem outcome_retain_of_failed {run : ItemAction F σ} {item : Value F} {now after : World F σ}
    {error : Error} (failed : (run item).outcome now = (.error error, after))
    (rest : List (Value F)) : (retain run (item :: rest)).outcome now = (.error error, after) := by
  rw [retain, outcome_bind, failed]

/-- The test of the null value, settled or not, by an object that is no predicate fails and takes
nothing from iterators. -/
theorem exists_outcome_testItem_null (meaning : Meaning F σ) {target : Target}
    (present : target.hasSequence = true) :
    ∃ settled, (settle target .null : Action F σ (Value F)) = pure settled ∧
      ∀ first ∈ [.null, settled], ∀ now : World F σ, ∃ error after,
        (testItem meaning target (.object .null) first).outcome now = (.error error, after) ∧
          after.supplies = now.supplies := by
  cases target with
  | sequence key name =>
      refine ⟨.list [.null], rfl, ?_⟩
      rw [List.forall_mem_cons, List.forall_mem_singleton]
      exact ⟨fun now => ⟨_, _, rfl, rfl⟩, fun now => ⟨_, _, rfl, rfl⟩⟩
  | tuple parts =>
      refine ⟨.null, rfl, ?_⟩
      rw [List.forall_mem_cons, List.forall_mem_singleton]
      exact ⟨fun now => ⟨_, _, rfl, rfl⟩, fun now => ⟨_, _, rfl, rfl⟩⟩
  | _ => simp [Target.hasSequence] at present

/-- For any target with a sequence, also one that cannot be written, a filter that does not settle
differs: where its first test fails, it leaves the later items as they are. -/
theorem exists_undrained (call : F → Option (Value F) → Action F σ (Value F)) (index : Nat)
    {target : Target} (present : target.hasSequence = true) (world : World F σ) :
    ∃ (items : List (Value F)) (predicate : Callback F),
      ((settleAndFilter (.standard call) index target predicate
          (.listMonad none false items)).outcome world.supplied).2.supplies = [{ items := [] }] ∧
        ((filterUnsettled (.standard call) index target predicate
          (.listMonad none false items)).outcome world.supplied).2.supplies =
            [{ items := [.null] }] := by
  obtain ⟨key, item, draws⟩ :=
    Target.exists_draws present (target.fits_blank : target.Fits (target.blank : Value F))
  obtain ⟨kept, drained, settles, empty⟩ : ∃ kept drained,
      (settle target item).outcome world.supplied = (.ok kept, drained) ∧
        drained.supplies = [{ items := [] }] := by
    obtain ⟨kept, settles, -⟩ := outcome_settle target item world.supplied (draws.quiet rfl)
    exact ⟨kept, _, settles, draws.allDrawn _⟩
  obtain ⟨first, settlesNull, fails⟩ := exists_outcome_testItem_null (.standard call) present
  rw [List.forall_mem_cons, List.forall_mem_singleton] at fails
  refine ⟨[.null, item], .object .null, ?_, ?_⟩
  · obtain ⟨error, after, failed, same⟩ := fails.2 drained
    simp only [settleAndFilter_listMonad, collect, settlesNull, outcome_bind, settles, outcome_pure,
      pure_bind, outcome_retain_of_failed failed, same, empty]
  · obtain ⟨error, after, failed, same⟩ := fails.1 world.supplied
    simp only [filterUnsettled_listMonad, outcome_bind, outcome_retain_of_failed failed, same]
    rfl

theorem exists_settle_ne {target : Target} (present : target.hasSequence = true)
    (world : World F σ) :
    ∃ value : Value F, ((settle target value).outcome world).1 ≠ .ok value := by
  obtain ⟨key, name, member⟩ := target.exists_sequence_mem_leaves present
  have quiet : ∀ arrival ∈ target.arrivals (Target.blank target : Value F),
      arrival.Quiet world.supplies := by
    rw [Target.arrivals_blank, List.forall_mem_map]
    intro leaf _
    cases leaf with
    | sequence key name => rfl
    | _ => trivial
  obtain ⟨settled, reached, arriving⟩ := outcome_settle target _ world quiet
  refine ⟨Target.blank target, ?_⟩
  rw [reached]
  intro same
  obtain rfl : settled = Target.blank target := by simpa using same
  -- what arrives at a sequence of a settled value is a list, and this is the null value
  have list : (⟨.sequence key name, .null⟩ : Arrival F).Settled := by
    have settles : ⟨.sequence key name, .null⟩ ∈
        Arrival.settleEach world.supplies (target.arrivals (Target.blank target : Value F)) := by
      rw [← arriving, Target.arrivals_blank]
      exact List.mem_map_of_mem member
    exact Arrival.settled_of_mem_settleEach _ settles
  obtain ⟨items, isList⟩ := list
  cases isList

/-- A filter settles its items exactly where this is not the identity. A target has no sequence just
when settling gives back every value, and then nothing is taken from iterators. On lists, optional
values and deferred lists a filter ends as one that always settles ends: with the same items or the
same error, in the same state. And for a target with a sequence settling cannot be left out: there
are a list and a predicate for which iterators are left differently, and if the target can be
written at all, then a monad of one item loses what an iterator holds. -/
theorem settles_where_needed (target : Target)
    (call : F → Option (Value F) → Action F σ (Value F)) (index : Nat) (world : World F σ) :
    (target.hasSequence = false ↔
      ∀ value : Value F, ((settle target value).outcome world).1 = .ok value) ∧
    (target.hasSequence = false →
      ∀ value : Value F, ((settle target value).outcome world).2 = world) ∧
    (∀ (predicate : Callback F) (value : Value F), value.IsUntraced →
      SameEnds (.standard call) (applyFilter (.standard call) index target predicate value)
        (settleAndFilter (.standard call) index target predicate value) world) ∧
    (target.hasSequence = true →
      (∃ items predicate,
        ((applyFilter (.standard call) index target predicate
            (.listMonad none false items)).outcome world.supplied).2.supplies ≠
          ((filterUnsettled (.standard call) index target predicate
            (.listMonad none false items)).outcome world.supplied).2.supplies) ∧
      ∀ body, (∀ argument, call body argument = pure (.bool true)) →
        (∃ value, ∃ before written : World F σ,
          (deposit target value).outcome before = (.ok (), written)) →
        ∃ key item kept, ∀ monad ∈ Value.singles item, ∃ after last : World F σ,
          (applyFilter (.standard call) index target (.function body) monad >>=
              Value.held (.standard call)).outcome world.supplied = (.ok [kept], after) ∧
            ((deposit target kept).outcome after).2.content (.sequence key) = .list [.null] ∧
          (filterUnsettled (.standard call) index target (.function body) monad >>=
              Value.held (.standard call)).outcome world.supplied = (.ok [item], last) ∧
            ((deposit target item).outcome last).2.content (.sequence key) = .list []) := by
  refine ⟨⟨?_, ?_⟩, ?_, ?_, ?_⟩
  · intro absent value
    rw [settle_of_not_hasSequence target value absent, outcome_pure]
  · intro identity
    cases present : target.hasSequence with
    | false => rfl
    | true =>
        obtain ⟨value, differs⟩ := exists_settle_ne present world
        exact absurd (identity value) differs
  · intro absent value
    rw [settle_of_not_hasSequence target value absent, outcome_pure]
  · intro predicate value monad
    rw [applyFilter_eq]
    cases present : target.hasSequence with
    | false => exact sameEnds_of_not_hasSequence call index predicate present monad world
    | true => exact sameEnds_self _ _ world
  · intro present
    simp only [applyFilter_eq, present, if_true]
    refine ⟨?_, ?_⟩
    · obtain ⟨items, predicate, drained, undrained⟩ := exists_undrained call index present world
      exact ⟨items, predicate, by rw [drained, undrained]; simp⟩
    · rintro body passes ⟨value, before, written, writable⟩
      exact exists_lost call index present passes writable world

def slotAndSequence : Target :=
  .tuple [.slot "x" none, .sequence "xs" none]

/-- A list of one item that goes to a slot and a sequence: the item is kept with what the iterator
held by a filter, and without it by one that does not settle. -/
theorem settles_where_needed_slotAndSequence :
    slotAndSequence.hasSequence = true ∧
      ∃ key item kept, ∃ after last : World Unit Unit,
        (applyFilter (.standard fun _ _ => pure (.bool true)) 0 slotAndSequence (.function ())
            (.listMonad none false [item]) >>=
              Value.held (.standard fun _ _ => pure (.bool true))).outcome
            crowdedWorld.supplied = (.ok [kept], after) ∧
          ((deposit slotAndSequence kept).outcome after).2.content (.sequence key) =
            .list [.null] ∧
        (filterUnsettled (.standard fun _ _ => pure (.bool true)) 0 slotAndSequence (.function ())
            (.listMonad none false [item]) >>=
              Value.held (.standard fun _ _ => pure (.bool true))).outcome
            crowdedWorld.supplied = (.ok [item], last) ∧
          ((deposit slotAndSequence item).outcome last).2.content (.sequence key) = .list [] := by
  have writable : ∃ value, ∃ before written : World Unit Unit,
      (deposit slotAndSequence value).outcome before = (.ok (), written) :=
    ⟨.bundle [.null, .null], crowdedWorld, _, rfl⟩
  obtain ⟨-, lost⟩ := (settles_where_needed slotAndSequence (fun _ _ => pure (.bool true)) 0
    crowdedWorld).2.2.2 rfl
  obtain ⟨key, item, kept, each⟩ := lost () (fun _ => rfl) writable
  obtain ⟨after, last, keeps⟩ := each (.listMonad none false [item]) (by simp [Value.singles])
  exact ⟨rfl, key, item, kept, after, last, keeps⟩

end Bindery
