import Bindery.Proofs.Environment

set_option autoImplicit false

namespace Bindery

open Bindery.Action

variable {F σ : Type}

def World.Binds (world : World F σ) (env : Env F) : Prop :=
  ∀ binding ∈ env, world.slot binding.1 = binding.2

theorem World.Binds.setSlots {world : World F σ} {env : Env F} (binds : world.Binds env)
    {target : Target} {value : Value F} (fits : target.Fits value)
    (different : (env.map (·.1) ++ target.slotKeys).Nodup) :
    (world.setSlots (target.bindings value)).Binds (env ++ target.bindings value) := by
  rw [← Target.keys_bindings target value fits, List.nodup_append] at different
  intro binding member
  rcases List.mem_append.mp member with bound | fresh
  · rw [World.slot_setSlots_of_not_mem, binds binding bound]
    intro overwritten
    exact different.2.2 _ (List.mem_map_of_mem bound) _ overwritten rfl
  · exact World.slot_setSlots_of_mem world _ _ _ different.2.1 fresh

/-- Where keys are laid out in the order of their slots, those that are bound next are different
from those that are bound, and the others come later. -/
theorem nodup_and_keys_of_placed {env : Env F} {target : Target} {keys later : List String}
    {value : Value F} (different : keys.Nodup)
    (placed : env.map (·.1) ++ (target.slotKeys ++ later) = keys) (fits : target.Fits value) :
    (env.map (·.1) ++ target.slotKeys).Nodup ∧
      (env ++ target.bindings value).map (·.1) ++ later = keys := by
  rw [← List.append_assoc] at placed
  constructor
  · exact (List.nodup_append.mp (placed ▸ different)).1
  · rw [List.map_append, Target.keys_bindings target value fits, placed]

/-- What a function leaves as it was: some slots, and the steps of a context. -/
structure Undisturbed (keys : List String) (context : Nat) (before after : World F σ) : Prop where
  slots : ∀ key ∈ keys, after.slot key = before.slot key
  steps : ∀ steps, before.contexts[context]? = some steps → after.contexts[context]? = some steps

/-- A function gives an expected value in each state that binds an environment, and disturbs
nothing. `allowed` says which contexts may be open when it is called. -/
def Gives (keys : List String) (context : Nat) (allowed : List Nat → Prop) (env : Env F)
    (expected : Value F → Prop) (action : Action F σ (Value F)) : Prop :=
  ∀ now : World F σ, allowed now.opened → now.Binds env →
    action.Ends now (fun value after =>
      expected value ∧ Undisturbed keys context now after ∧ allowed after.opened) fun _ _ => False

def Answers (call : F → Option (Value F) → Action F σ (Value F)) (reading : Reading F)
    (keys : List String) (context : Nat) (allowed : List Nat → Prop) (callback : Callback F) :
    Prop :=
  ∀ argument env result, reading.ask callback argument env = some result →
    Gives keys context allowed env (· = result) (callback.call (.standard call) argument)

/-- A source gives a list monad of the items that a reading says. -/
def Draws (call : F → Option (Value F) → Action F σ (Value F)) (reading : Reading F)
    (keys : List String) (context : Nat) (allowed : List Nat → Prop) (source : F) : Prop :=
  ∀ env items, reading.items source env = some items →
    Gives keys context allowed env (fun value => ∃ number, value = .listMonad number false items)
      (call source none)

/-- While steps are chained: the slots hold an environment, and the steps are registered. -/
structure Holding (context : Nat) (steps : List (Step F)) (allowed : List Nat → Prop) (env : Env F)
    (now : World F σ) : Prop where
  binds : now.Binds env
  registered : now.contexts[context]? = some steps
  opened : allowed now.opened

namespace Holding

variable {keys later : List String} {context : Nat} {steps : List (Step F)}
  {allowed : List Nat → Prop} {env : Env F} {now after : World F σ}

theorem of_append {more : Env F} (holds : Holding context steps allowed (env ++ more) now) :
    Holding context steps allowed env now :=
  { holds with binds := fun binding member => holds.binds binding (List.mem_append_left _ member) }

theorem of_undisturbed (holds : Holding context steps allowed env now)
    (undisturbed : Undisturbed keys context now after) (permitted : allowed after.opened)
    (placed : env.map (·.1) ++ later = keys) :
    Holding context steps allowed env after where
  binds binding member := by
    have inside : binding.1 ∈ keys := by
      rw [← placed]
      exact List.mem_append_left _ (List.mem_map_of_mem member)
    rw [undisturbed.slots _ inside, holds.binds binding member]
  registered := undisturbed.steps steps holds.registered
  opened := permitted

theorem step? (holds : Holding context steps allowed env now) (position : Nat) :
    now.step? ⟨context, position⟩ = steps[position]? := by
  simp [World.step?, World.steps, holds.registered]

theorem ends (holds : Holding context steps allowed env now) (later : List String)
    {expected : Value F → Prop} {action : Action F σ (Value F)}
    (gives : Gives keys context allowed env expected action)
    (placed : env.map (·.1) ++ later = keys) :
    action.Ends now (fun value after => expected value ∧ Holding context steps allowed env after)
      fun _ _ => False :=
  (gives now holds.opened holds.binds).imp fun _ _ given =>
    ⟨given.1, holds.of_undisturbed given.2.1 given.2.2 placed⟩

theorem deposit (holds : Holding context steps allowed env now) {target : Target} {value : Value F}
    (slots : target.SlotsOnly) (fits : target.Fits value)
    (different : (env.map (·.1) ++ target.slotKeys).Nodup) :
    (Bindery.deposit target value).Ends now
      (fun _ after => Holding context steps allowed (env ++ target.bindings value) after)
      fun _ _ => False := by
  unfold Ends
  rw [outcome_deposit_of_slotsOnly target value now slots fits]
  refine ⟨holds.binds.setSlots fits different, ?_, ?_⟩
  · rw [World.contexts_setSlots]
    exact holds.registered
  · rw [World.opened_setSlots]
    exact holds.opened

theorem settleAndDeposit (holds : Holding context steps allowed env now) {target : Target}
    {value : Value F} (slots : target.SlotsOnly) (fits : target.Fits value)
    (different : (env.map (·.1) ++ target.slotKeys).Nodup) :
    (Bindery.settleAndDeposit target value).Ends now
      (fun settled after => settled = value ∧
        Holding context steps allowed (env ++ target.bindings value) after)
      fun _ _ => False := by
  rw [Bindery.settleAndDeposit,
    settle_of_not_hasSequence target value (Target.hasSequence_of_slotsOnly target slots),
    pure_bind, ends_bind]
  exact (holds.deposit slots fits different).imp fun _ _ kept => ⟨rfl, kept⟩

end Holding

section Items

variable {call : F → Option (Value F) → Action F σ (Value F)} {reading : Reading F}
  {keys later : List String} {context : Nat} {steps : List (Step F)} {allowed : List Nat → Prop}
  {env : Env F} {target : Target} {now : World F σ}

theorem ends_testItem {predicate : Callback F} {item verdict : Value F}
    (answers : Answers call reading keys context allowed predicate)
    (asked : reading.ask predicate (some item) (env ++ target.bindings item) = some verdict)
    (slots : target.SlotsOnly) (fits : target.Fits item) (different : keys.Nodup)
    (placed : env.map (·.1) ++ (target.slotKeys ++ later) = keys)
    (holds : Holding context steps allowed env now) :
    (testItem (.standard call) target predicate item).Ends now
      (fun value after => value = verdict ∧ Holding context steps allowed env after)
      fun _ _ => False := by
  obtain ⟨inside, covered⟩ := nodup_and_keys_of_placed different placed fits
  rw [testItem, ends_bind]
  refine (holds.deposit slots fits inside).imp fun _ reached held => ?_
  refine (held.ends later (answers _ _ _ asked) covered).imp fun value after answered => ?_
  exact ⟨answered.1, answered.2.of_append⟩

theorem ends_pairItem {added : Target} {thunk : Callback F} {item defined : Value F}
    (answers : Answers call reading keys context allowed thunk)
    (asked : reading.ask thunk none (env ++ target.bindings item) = some defined)
    (slots : target.SlotsOnly) (addedSlots : added.SlotsOnly) (fits : target.Fits item)
    (different : keys.Nodup) (placed : env.map (·.1) ++ (target.slotKeys ++ later) = keys)
    (holds : Holding context steps allowed env now) :
    (pairItem (.standard call) target added thunk item).Ends now
      (fun value after =>
        value = .bundle [item, defined] ∧ Holding context steps allowed env after)
      fun _ _ => False := by
  obtain ⟨inside, covered⟩ := nodup_and_keys_of_placed different placed fits
  rw [pairItem, ends_bind]
  refine (holds.settleAndDeposit slots fits inside).imp ?_
  rintro settled reached ⟨rfl, held⟩
  rw [ends_bind]
  refine (held.ends later (answers _ _ _ asked) covered).imp ?_
  rintro value after ⟨rfl, answered⟩
  rw [settle_of_not_hasSequence added value (Target.hasSequence_of_slotsOnly added addedSlots),
    pure_bind, ends_pure]
  exact ⟨rfl, answered.of_append⟩

end Items

theorem forall₂_of_forall₂ {α β γ : Type} {first : α → β → Prop} {second : α → γ → Prop}
    {third : γ → β → Prop} (gives : ∀ item left right, first item left → second item right →
      third right left) {items : List α} {lefts : List β} {rights : List γ}
    (firsts : List.Forall₂ first items lefts) (seconds : List.Forall₂ second items rights) :
    List.Forall₂ third rights lefts := by
  induction firsts generalizing rights with
  | nil =>
      cases seconds
      exact .nil
  | cons related _ ih =>
      cases seconds with
      | cons other others => exact .cons (gives _ _ _ related other) (ih others)

theorem exists_mem_of_forall₂ {α β : Type} {related : α → β → Prop} {items : List α}
    {others : List β} (relates : List.Forall₂ related items others) :
    ∀ item ∈ items, ∃ other ∈ others, related item other := by
  induction relates with
  | nil => simp
  | @cons item other _ _ found _ ih =>
      rw [List.forall_mem_cons]
      refine ⟨⟨other, List.mem_cons_self, found⟩, fun next member => ?_⟩
      obtain ⟨partner, among, later⟩ := ih next member
      exact ⟨partner, List.mem_cons_of_mem _ among, later⟩

namespace Reading

variable {reading : Reading F}

/-- The rows that a filter leaves are the rows of the items that pass. -/
theorem flatten_of_filter {predicate : Callback F} {qualifiers : List (Qualifier F)}
    {envOf : Value F → Env F} {items verdicts : List (Value F)}
    {lists : List (List (Env F × Value F))}
    (qualified : List.Forall₂ (fun item rows =>
      reading.qualify (.filter predicate :: qualifiers) (envOf item) item = some rows) items lists)
    (asked : List.Forall₂ (fun item verdict =>
      reading.ask predicate (some item) (envOf item) = some verdict) items verdicts) :
    ∃ keptLists, keptLists.flatten = lists.flatten ∧
      List.Forall₂ (fun item rows => reading.qualify qualifiers (envOf item) item = some rows)
        (((items.zip verdicts).filter (·.2.isTrue)).map (·.1)) keptLists := by
  induction qualified generalizing verdicts with
  | nil => exact ⟨[], rfl, by simp⟩
  | @cons item rows items lists found _ ih =>
      cases asked with
      | @cons _ verdict _ verdicts answer answers =>
          obtain ⟨keptLists, same, kept⟩ := ih answers
          simp only [qualify, answer, Option.bind_eq_bind, Option.bind_some] at found
          cases passes : verdict.isTrue with
          | true =>
              simp only [passes, ↓reduceIte] at found
              refine ⟨rows :: keptLists, by simp [same], ?_⟩
              simp only [List.zip_cons_cons, List.filter_cons, passes, ↓reduceIte, List.map_cons]
              exact .cons found kept
          | false =>
              simp only [passes, Bool.false_eq_true, ↓reduceIte] at found
              cases found
              refine ⟨keptLists, by simp [same], ?_⟩
              simpa only [List.zip_cons_cons, List.filter_cons, passes, Bool.false_eq_true,
                ↓reduceIte] using kept

theorem env_of_qualify {qualifiers : List (Qualifier F)} {env : Env F} {target : Target}
    {item : Value F} (plain : ∀ qualifier ∈ qualifiers, qualifier.IsPlain)
    (fits : target.Fits item) {rows : List (Env F × Value F)}
    (found : reading.qualify qualifiers (env ++ target.bindings item) item = some rows) :
    ∀ row ∈ rows, (qualifiers.foldl Qualifier.retarget target).Fits row.2 ∧
      row.1 = env ++ (qualifiers.foldl Qualifier.retarget target).bindings row.2 := by
  induction qualifiers generalizing target item with
  | nil =>
      cases found
      simpa using fits
  | cons qualifier rest ih =>
      rw [List.forall_mem_cons] at plain
      cases qualifier with
      | filter predicate =>
          simp only [qualify, Option.bind_eq_bind, Option.bind_eq_some_iff] at found
          obtain ⟨verdict, -, found⟩ := found
          cases passes : verdict.isTrue with
          | true =>
              simp only [passes, ↓reduceIte] at found
              exact ih plain.2 fits found
          | false =>
              simp only [passes, Bool.false_eq_true, ↓reduceIte] at found
              cases found
              simp
      | define added thunk =>
          simp only [qualify, Option.bind_eq_bind, Option.bind_eq_some_iff] at found
          obtain ⟨defined, -, found⟩ := found
          have pairFits : (Target.tuple [target, added]).Fits (.bundle [item, defined]) :=
            (Target.takes_pair _ _ _ _ _).mpr ⟨fits, plain.1.fits defined⟩
          refine ih plain.2 pairFits ?_
          rw [Qualifier.retarget, Target.bindings_pair, ← List.append_assoc]
          exact found

end Reading

section Qualifiers

variable {call : F → Option (Value F) → Action F σ (Value F)} {reading : Reading F}
  {keys later : List String} {context : Nat} {steps : List (Step F)} {allowed : List Nat → Prop}
  {env : Env F}

theorem eq_of_unqualified {envOf : Value F → Env F} {items : List (Value F)}
    {lists : List (List (Env F × Value F))}
    (qualified : List.Forall₂ (fun item rows =>
      reading.qualify [] (envOf item) item = some rows) items lists) :
    items = lists.flatten.map (·.2) := by
  induction qualified with
  | nil => rfl
  | cons found _ ih =>
      cases found
      simp [← ih]

theorem ends_filterItems {predicate : Callback F} {rest : List (Qualifier F)} {target : Target}
    {items : List (Value F)} {lists : List (List (Env F × Value F))}
    (answers : Answers call reading keys context allowed predicate) (slots : target.SlotsOnly)
    (fits : ∀ item ∈ items, target.Fits item) (different : keys.Nodup)
    (placed : env.map (·.1) ++ (target.slotKeys ++ later) = keys)
    (qualified : List.Forall₂ (fun item rows =>
      reading.qualify (.filter predicate :: rest) (env ++ target.bindings item) item = some rows)
      items lists)
    {now : World F σ} (holds : Holding context steps allowed env now) :
    (filterItems (.standard call) target predicate items).Ends now
      (fun kept after =>
        ((∀ item ∈ kept, target.Fits item) ∧
          ∃ keptLists, keptLists.flatten = lists.flatten ∧
            List.Forall₂ (fun item rows =>
              reading.qualify rest (env ++ target.bindings item) item = some rows)
              kept keptLists) ∧
          Holding context steps allowed env after)
      fun _ _ => False := by
  have absent := Target.hasSequence_of_slotsOnly target slots
  have tested : ∀ item ∈ items, ∀ world, Holding context steps allowed env world →
      (testItem (.standard call) target predicate item).Ends world
        (fun verdict after =>
          reading.ask predicate (some item) (env ++ target.bindings item) = some verdict ∧
            Holding context steps allowed env after) fun _ _ => False := by
    intro item member world held
    obtain ⟨rows, -, found⟩ := exists_mem_of_forall₂ qualified item member
    simp only [Reading.qualify, Option.bind_eq_bind, Option.bind_eq_some_iff] at found
    obtain ⟨verdict, asked, -⟩ := found
    refine (ends_testItem answers asked slots (fits item member) different placed held).imp ?_
    rintro value after ⟨rfl, reached⟩
    exact ⟨asked, reached⟩
  simp only [filterItems, absent, Bool.false_eq_true, ↓reduceIte, pure_bind]
  refine (ends_retain tested holds).imp ?_
  rintro _ after ⟨⟨verdicts, asked, rfl⟩, held⟩
  refine ⟨⟨fun item member => fits item ?_, Reading.flatten_of_filter qualified asked⟩, held⟩
  obtain ⟨⟨_, verdict⟩, among, rfl⟩ := List.mem_map.mp member
  exact (List.of_mem_zip (List.mem_filter.mp among).1).1

theorem ends_pairItems {added : Target} {thunk : Callback F} {rest : List (Qualifier F)}
    {target : Target} {items : List (Value F)} {lists : List (List (Env F × Value F))}
    (answers : Answers call reading keys context allowed thunk) (slots : target.SlotsOnly)
    (plain : added.IsPlain) (fits : ∀ item ∈ items, target.Fits item) (different : keys.Nodup)
    (placed : env.map (·.1) ++ (target.slotKeys ++ later) = keys)
    (qualified : List.Forall₂ (fun item rows =>
      reading.qualify (.define added thunk :: rest) (env ++ target.bindings item) item =
        some rows) items lists)
    {now : World F σ} (holds : Holding context steps allowed env now) :
    (collect (pairItem (.standard call) target added thunk) items).Ends now
      (fun pairs after =>
        ((∀ pair ∈ pairs, (Target.tuple [target, added]).Fits pair) ∧
          List.Forall₂ (fun pair rows =>
            reading.qualify rest (env ++ (Target.tuple [target, added]).bindings pair) pair =
              some rows) pairs lists) ∧
          Holding context steps allowed env after)
      fun _ _ => False := by
  have paired : ∀ item ∈ items, ∀ world, Holding context steps allowed env world →
      (pairItem (.standard call) target added thunk item).Ends world
        (fun value after =>
          (∃ defined, reading.ask thunk none (env ++ target.bindings item) = some defined ∧
            value = .bundle [item, defined]) ∧
            Holding context steps allowed env after) fun _ _ => False := by
    intro item member world held
    obtain ⟨rows, -, found⟩ := exists_mem_of_forall₂ qualified item member
    simp only [Reading.qualify, Option.bind_eq_bind, Option.bind_eq_some_iff] at found
    obtain ⟨defined, asked, -⟩ := found
    refine (ends_pairItem answers asked slots (Target.IsPlain.slotsOnly plain)
      (fits item member) different placed held).imp ?_
    rintro value after ⟨rfl, reached⟩
    exact ⟨⟨defined, asked, rfl⟩, reached⟩
  refine (ends_collect paired holds).imp ?_
  rintro pairs after ⟨bundled, held⟩
  refine ⟨⟨fun pair member => ?_, ?_⟩, held⟩
  · obtain ⟨item, among, defined, -, rfl⟩ := exists_mem_of_forall₂ bundled.flip pair member
    exact (Target.takes_pair _ _ _ _ _).mpr
      ⟨fits item among, Target.IsPlain.fits plain defined⟩
  · refine forall₂_of_forall₂ ?_ qualified bundled
    rintro item rows pair found ⟨defined, asked, rfl⟩
    simpa [Reading.qualify, asked] using found

/-- All qualifiers run on all items, one qualifier after the other. They leave what the reading
leaves, which takes the items one after the other. -/
theorem ends_qualifyItems {qualifiers : List (Qualifier F)} {target : Target}
    {items : List (Value F)} {lists : List (List (Env F × Value F))}
    (answers : ∀ qualifier ∈ qualifiers,
      Answers call reading keys context allowed qualifier.callback)
    (plain : ∀ qualifier ∈ qualifiers, qualifier.IsPlain) (slots : target.SlotsOnly)
    (fits : ∀ item ∈ items, target.Fits item) (different : keys.Nodup)
    (placed : env.map (·.1) ++
      (target.slotKeys ++ (qualifiers.flatMap Qualifier.slotKeys ++ later)) = keys)
    (qualified : List.Forall₂ (fun item rows =>
      reading.qualify qualifiers (env ++ target.bindings item) item = some rows) items lists)
    {now : World F σ} (holds : Holding context steps allowed env now) :
    (qualifyItems (.standard call) target qualifiers items).Ends now
      (fun kept after =>
        kept = lists.flatten.map (·.2) ∧ Holding context steps allowed env after)
      fun _ _ => False := by
  induction qualifiers generalizing target items lists now with
  | nil => exact ⟨eq_of_unqualified qualified, holds⟩
  | cons qualifier rest ih =>
      rw [List.forall_mem_cons] at answers plain
      cases qualifier with
      | filter predicate =>
          rw [qualifyItems, ends_bind]
          refine (ends_filterItems answers.1 slots fits different placed qualified holds).imp ?_
          rintro kept after ⟨⟨keptFits, keptLists, same, left⟩, held⟩
          rw [← same]
          exact ih answers.2 plain.2 slots keptFits placed left held
      | define added thunk =>
          have addedSlots : added.SlotsOnly := Target.IsPlain.slotsOnly plain.1
          have pairSlots := (Target.slotsOnly_pair target added).mpr ⟨slots, addedSlots⟩
          rw [qualifyItems, ends_bind]
          refine (ends_pairItems answers.1 slots plain.1 fits different placed qualified
            holds).imp ?_
          rintro pairs after ⟨⟨pairFits, left⟩, held⟩
          refine ih answers.2 plain.2 pairSlots pairFits ?_ left held
          simpa [Qualifier.slotKeys] using placed

end Qualifiers

theorem forall₂_of_mapM {α β : Type} {read : α → Option β} {items : List α} {values : List β}
    (found : items.mapM read = some values) :
    List.Forall₂ (fun item value => read item = some value) items values := by
  induction items generalizing values with
  | nil =>
      cases found
      exact .nil
  | cons item rest ih =>
      simp only [List.mapM_cons, Option.bind_eq_bind, Option.bind_eq_some_iff] at found
      obtain ⟨value, read, others, foundOthers, same⟩ := found
      cases same
      exact .cons read (ih foundOthers)

namespace Reading

variable {reading : Reading F}

theorem forall₂_of_rows {clause : Clause F} {env : Env F} {rows : List (Env F × Value F)}
    (found : reading.rows clause env = some rows) :
    ∃ items lists, reading.items clause.source env = some items ∧ rows = lists.flatten ∧
      List.Forall₂ (fun item rows =>
        reading.qualify clause.qualifiers (env ++ clause.target.bindings item) item = some rows)
        items lists := by
  simp only [Reading.rows, Option.bind_eq_bind, Option.bind_eq_some_iff] at found
  obtain ⟨items, drawn, lists, qualified, same⟩ := found
  cases same
  exact ⟨items, lists, drawn, rfl, forall₂_of_mapM qualified⟩

/-- The rows of a clause are values that fit its target with all definitions, each with what it
binds there. -/
theorem rows_eq_map {clause : Clause F} {env : Env F} {rows : List (Env F × Value F)}
    (plain : clause.IsPlain) (found : reading.rows clause env = some rows) :
    (∀ value ∈ rows.map (·.2), clause.fullTarget.Fits value) ∧
      rows = (rows.map (·.2)).map fun value =>
        (env ++ clause.fullTarget.bindings value, value) := by
  obtain ⟨items, lists, -, rfl, related⟩ := forall₂_of_rows found
  have bound : ∀ row ∈ lists.flatten, clause.fullTarget.Fits row.2 ∧
      row.1 = env ++ clause.fullTarget.bindings row.2 := by
    intro row member
    obtain ⟨list, among, inside⟩ := List.mem_flatten.mp member
    obtain ⟨item, -, qualified⟩ := exists_mem_of_forall₂ related.flip list among
    exact env_of_qualify plain.2 (plain.1.fits item) qualified row inside
  constructor
  · intro value member
    obtain ⟨row, among, rfl⟩ := List.mem_map.mp member
    exact (bound row among).1
  · rw [List.map_map]
    refine (List.map_id _).symm.trans (List.map_congr_left fun row member => ?_)
    exact Prod.ext (bound row member).2 rfl

end Reading

end Bindery
