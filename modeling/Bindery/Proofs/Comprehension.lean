import Bindery.Proofs.Rows
import Bindery.Proofs.Snapshot

set_option autoImplicit false

namespace Bindery

open Bindery.Action

variable {F σ : Type}

section Chain

variable {call : F → Option (Value F) → Action F σ (Value F)} {reading : Reading F}
  {keys later : List String} {context : Nat} {steps : List (Step F)} {allowed : List Nat → Prop}

structure Clause.Follows (call : F → Option (Value F) → Action F σ (Value F))
    (reading : Reading F) (keys : List String) (context : Nat) (allowed : List Nat → Prop)
    (clause : Clause F) : Prop where
  source : Draws call reading keys context allowed clause.source
  qualifiers : ∀ qualifier ∈ clause.qualifiers,
    Answers call reading keys context allowed qualifier.callback

theorem ends_generate {clause : Clause F} {block : Option F} {place : Nat} {env : Env F}
    {rows : List (Env F × Value F)}
    (follows : clause.Follows call reading keys context allowed) (plain : clause.IsPlain)
    (different : keys.Nodup) (placed : env.map (·.1) ++ (clause.slotKeys ++ later) = keys)
    (found : reading.rows clause env = some rows)
    {now : World F σ} (holds : Holding context steps allowed env now) :
    ((clause.step block).generate (.standard call) place).Ends now
      (fun value after =>
        (∃ number, value = .listMonad number false (rows.map (·.2))) ∧
          Holding context steps allowed env after)
      fun _ _ => False := by
  obtain ⟨items, lists, drawn, rfl, qualified⟩ := Reading.forall₂_of_rows found
  rw [Step.generate, ends_bind]
  refine (holds.ends _ (follows.source env items drawn) placed).imp ?_
  rintro value after ⟨⟨number, rfl⟩, held⟩
  rw [applyQualifiers_listMonad, ends_bind]
  have ready := ends_qualifyItems follows.qualifiers plain.2 plain.1.slotsOnly
    (fun item _ => plain.1.fits item) different (by simpa [Clause.slotKeys] using placed) qualified
    held
  refine ready.imp ?_
  rintro kept last ⟨rfl, reached⟩
  exact ⟨⟨_, rfl⟩, reached⟩

/-- What is done with the items of a step, in states that hold an environment. -/
theorem ends_chainFrom_of_finish (clause : Clause F) (block : Option F) (later : List String)
    {env : Env F}
    {rows : List (Env F × Value F)} {results : List (Value F)} {rest : List StepRef}
    {position index : Nat} (registered : steps[position]? = some (clause.step block))
    (follows : clause.Follows call reading keys context allowed) (plain : clause.IsPlain)
    (different : keys.Nodup) (placed : env.map (·.1) ++ (clause.slotKeys ++ later) = keys)
    (found : reading.rows clause env = some rows)
    (finish : ∀ now, Holding context steps allowed env now →
      (finishItems (.standard call) listItems (clause.step block) (clause.step block) rest index
        (rows.map (·.2))).Ends now
        (fun values after => values = results ∧ Holding context steps allowed env after)
        fun _ _ => False)
    {now : World F σ} (holds : Holding context steps allowed env now) :
    (chainFrom (.standard call) (⟨context, position⟩ :: rest) index).Ends now
      (fun value after => (∃ number, value = .listMonad number false results) ∧
        Holding context steps allowed env after)
      fun _ _ => False := by
  have present : ∀ reached : World F σ, Holding context steps allowed env reached →
      (currentStep ⟨context, position⟩).Ends reached
        (fun step after => step = clause.step block ∧ Holding context steps allowed env after)
        fun _ _ => False := by
    intro reached held
    unfold Ends
    rw [outcome_currentStep ((held.step? position).trans registered)]
    exact ⟨rfl, held⟩
  rw [chainFrom_cons, ends_bind]
  refine (present now holds).imp ?_
  rintro _ world ⟨rfl, held⟩
  rw [ends_bind]
  refine (ends_generate follows plain different placed found held).imp ?_
  rintro _ after ⟨⟨number, rfl⟩, generated⟩
  rw [requireMonadLike_listMonad, pure_bind, ends_bind]
  refine (present after generated).imp ?_
  rintro _ reached ⟨rfl, again⟩
  rw [finishValue_listMonad, ends_bind]
  refine (finish reached again).imp ?_
  rintro values last ⟨rfl, finished⟩
  exact ⟨⟨_, rfl⟩, finished⟩

theorem ends_concludeItem {last : Clause F} {body : F} {env : Env F} {item result : Value F}
    (concludes : Answers call reading keys context allowed (.function body))
    (plain : last.IsPlain) (fits : last.fullTarget.Fits item) (different : keys.Nodup)
    (placed : env.map (·.1) ++ last.slotKeys = keys)
    (answered : reading.answer body (some item) (env ++ last.fullTarget.bindings item) =
      some result)
    {now : World F σ} (holds : Holding context steps allowed env now) :
    (concludeItem (.standard call) last.fullTarget (.function body) item).Ends now
      (fun made after => made = result ∧ Holding context steps allowed env after)
      fun _ _ => False := by
  have inside : (env.map (·.1) ++ last.fullTarget.slotKeys).Nodup := by
    rw [plain.slotKeys, placed]
    exact different
  rw [concludeItem, ends_bind]
  refine (holds.settleAndDeposit plain.slotsOnly fits inside).imp ?_
  rintro settled reached ⟨rfl, deposited⟩
  have all : (env ++ last.fullTarget.bindings settled).map (·.1) ++ [] = keys := by
    rw [List.append_nil, List.map_append, Target.keys_bindings _ _ fits, plain.slotKeys, placed]
  refine (deposited.ends [] (concludes (some settled) _ result answered) all).imp ?_
  rintro _ after ⟨rfl, kept⟩
  exact ⟨rfl, kept.of_append⟩

theorem ends_concludeItems {last : Clause F} {block : Option F} {index : Nat} {env : Env F}
    {rows : List (Env F × Value F)} {results : List (Value F)}
    (concludes : ∀ body ∈ block, Answers call reading keys context allowed (.function body))
    (plain : last.IsPlain) (different : keys.Nodup)
    (placed : env.map (·.1) ++ last.slotKeys = keys)
    (read : reading.rows last env = some rows)
    (concluded : rows.mapM (reading.conclude block) = some results)
    {now : World F σ} (holds : Holding context steps allowed env now) :
    (finishItems (.standard call) listItems (last.step block) (last.step block) [] index
      (rows.map (·.2))).Ends now
      (fun values after => values = results ∧ Holding context steps allowed env after)
      fun _ _ => False := by
  obtain ⟨fits, same⟩ := Reading.rows_eq_map plain read
  have related := forall₂_of_mapM concluded
  rw [same, List.forall₂_map_left_iff] at related
  cases block with
  | none =>
      refine ⟨?_, holds⟩
      simp only [Reading.conclude, Option.some.injEq] at related
      rwa [List.forall₂_eq_eq_eq] at related
  | some body =>
      have made : ∀ value ∈ rows.map (·.2), ∀ world, Holding context steps allowed env world →
          (concludeItem (.standard call) last.fullTarget (.function body)
            value).Ends world
            (fun result after =>
              reading.conclude (some body)
                (env ++ last.fullTarget.bindings value, value) = some result ∧
                Holding context steps allowed env after) fun _ _ => False := by
        intro value member world held
        obtain ⟨result, -, answered⟩ := exists_mem_of_forall₂ related value member
        refine (ends_concludeItem (concludes body rfl) plain (fits value member) different placed
          answered held).imp ?_
        rintro _ after ⟨rfl, kept⟩
        exact ⟨answered, kept⟩
      refine (ends_collect made holds).imp ?_
      rintro values after ⟨conclusions, held⟩
      refine ⟨List.right_unique_forall₂' ?_ conclusions related, held⟩
      intro value first second firstRead secondRead
      exact Option.some.inj (firstRead.symm.trans secondRead)

theorem ends_proceedItem {clause : Clause F} {rest : List StepRef} {index : Nat} {env : Env F}
    {item : Value F} {results : List (Value F)} (plain : clause.IsPlain)
    (fits : clause.fullTarget.Fits item) (different : keys.Nodup)
    (placed : env.map (·.1) ++ (clause.slotKeys ++ later) = keys)
    (chained : (env ++ clause.fullTarget.bindings item).map (·.1) ++ later = keys →
      ∀ world, Holding context steps allowed (env ++ clause.fullTarget.bindings item) world →
        (chainFrom (.standard call) rest index).Ends world
          (fun value after => (∃ number, value = .listMonad number false results) ∧
            Holding context steps allowed (env ++ clause.fullTarget.bindings item) after)
          fun _ _ => False)
    {now : World F σ} (holds : Holding context steps allowed env now) :
    ((Continuation.proceed clause.fullTarget rest index).apply (.standard call) item).Ends now
      (fun value after => (∃ number, value = .listMonad number false results) ∧
        Holding context steps allowed env after)
      fun _ _ => False := by
  rw [← plain.slotKeys] at placed
  obtain ⟨inside, all⟩ := nodup_and_keys_of_placed different placed fits
  rw [Continuation.apply, ends_bind]
  refine (holds.settleAndDeposit plain.slotsOnly fits inside).imp ?_
  rintro settled reached ⟨rfl, deposited⟩
  exact (chained all reached deposited).imp fun _ _ found => ⟨found.1, found.2.of_append⟩

theorem ends_proceedItems {clause : Clause F} {rest : List StepRef} {next : StepRef} {index : Nat}
    {env : Env F} {rows : List (Env F × Value F)} {lists : List (List (Value F))}
    {read : Env F → Option (List (Value F))} (plain : clause.IsPlain) (different : keys.Nodup)
    (placed : env.map (·.1) ++ (clause.slotKeys ++ later) = keys)
    (found : reading.rows clause env = some rows)
    (gathered : rows.mapM (fun row => read row.1) = some lists)
    (chained : ∀ inner results, read inner = some results → inner.map (·.1) ++ later = keys →
      ∀ world, Holding context steps allowed inner world →
        (chainFrom (.standard call) (next :: rest) (index + 1)).Ends world
          (fun value after => (∃ number, value = .listMonad number false results) ∧
            Holding context steps allowed inner after) fun _ _ => False)
    {now : World F σ} (holds : Holding context steps allowed env now) :
    (finishItems (.standard call) listItems (clause.step none) (clause.step none) (next :: rest)
      index (rows.map (·.2))).Ends now
      (fun values after => values = lists.flatten ∧ Holding context steps allowed env after)
      fun _ _ => False := by
  obtain ⟨fits, same⟩ := Reading.rows_eq_map plain found
  have related := forall₂_of_mapM gathered
  rw [same, List.forall₂_map_left_iff] at related
  have proceeded : ∀ value ∈ rows.map (·.2), ∀ world, Holding context steps allowed env world →
      ((Continuation.proceed clause.fullTarget (next :: rest) (index + 1)).apply
        (.standard call) value).Ends world
        (fun result after => (listItems result).Ends after
          (fun results final =>
            read (env ++ clause.fullTarget.bindings value) = some results ∧
              Holding context steps allowed env final) fun _ _ => False) fun _ _ => False := by
    intro value member world held
    obtain ⟨results, -, answered⟩ := exists_mem_of_forall₂ related value member
    refine (ends_proceedItem plain (fits value member) different placed
      (chained _ results answered) held).imp ?_
    rintro _ after ⟨⟨number, rfl⟩, kept⟩
    exact ⟨answered, kept⟩
  refine (ends_gather proceeded holds).imp ?_
  rintro _ after ⟨⟨gatheredLists, results, rfl⟩, held⟩
  refine ⟨congrArg List.flatten (List.right_unique_forall₂' ?_ results related), held⟩
  intro value first second firstRead secondRead
  exact Option.some.inj (firstRead.symm.trans secondRead)

theorem ends_chainFrom {last : Clause F} {block : Option F} {clauses : List (Clause F)}
    (follows : ∀ clause ∈ clauses, clause.Follows call reading keys context allowed)
    (lastFollows : last.Follows call reading keys context allowed)
    (concludes : ∀ body ∈ block, Answers call reading keys context allowed (.function body))
    (plain : ∀ clause ∈ clauses, clause.IsPlain) (lastPlain : last.IsPlain)
    (different : keys.Nodup) (front : List (Step F))
    (registered : steps = front ++ (clauses.map (·.step none) ++ [last.step block]))
    (index : Nat) {env : Env F} {results : List (Value F)}
    (placed : env.map (·.1) ++ (clauses.flatMap Clause.slotKeys ++ last.slotKeys) = keys)
    (found : reading.results last block clauses env = some results)
    {now : World F σ} (holds : Holding context steps allowed env now) :
    (chainFrom (.standard call)
      ((List.range' front.length (clauses.length + 1)).map (⟨context, ·⟩)) index).Ends now
      (fun value after => (∃ number, value = .listMonad number false results) ∧
        Holding context steps allowed env after)
      fun _ _ => False := by
  induction clauses generalizing front index env results now with
  | nil =>
      simp only [Reading.results, Option.bind_eq_bind, Option.bind_eq_some_iff] at found
      obtain ⟨rows, read, concluded⟩ := found
      have registeredLast : steps[front.length]? = some (last.step block) := by simp [registered]
      have alone : env.map (·.1) ++ last.slotKeys = keys := by simpa using placed
      have within : env.map (·.1) ++ (last.slotKeys ++ []) = keys := by simpa using alone
      exact ends_chainFrom_of_finish last block [] registeredLast lastFollows lastPlain different
        within read
        (fun _ => ends_concludeItems concludes lastPlain different alone read concluded) holds
  | cons clause rest ih =>
      simp only [Reading.results, Option.bind_eq_bind, Option.bind_eq_some_iff] at found
      obtain ⟨rows, read, lists, gathered, same⟩ := found
      cases same
      rw [List.forall_mem_cons] at follows plain
      rw [List.length_cons, List.range'_succ, List.map_cons]
      have registeredClause : steps[front.length]? = some (clause.step none) := by
        simp [registered]
      have within : env.map (·.1) ++
          (clause.slotKeys ++ (rest.flatMap Clause.slotKeys ++ last.slotKeys)) = keys := by
        simpa using placed
      refine ends_chainFrom_of_finish clause none _ registeredClause follows.1 plain.1 different
        within read
        (fun _ => ends_proceedItems plain.1 different within read gathered ?_) holds
      intro inner results found placed world held
      have chained := ih follows.2 plain.2 (front ++ [clause.step none])
        (by simp [registered]) (index + 1) placed found held
      rw [List.length_append, List.length_singleton, List.range'_succ, List.map_cons] at chained
      exact chained

end Chain

namespace Clause

variable {clause : Clause F} (front : List (Step F))

theorem calls_register (accepts : clause.Accepts) :
    Call.AllInOrder clause.calls front ∧
      Call.amendAll clause.calls front = front ++ [clause.step none] := by
  refine ⟨⟨⟨accepts.target, clause.source, rfl⟩, ?_⟩, ?_⟩
  · exact allInOrder_qualifiers _ front _ accepts.definitions
  · exact (amendAll_qualifiers _ front _).trans (by simp [step])

theorem lastCalls_register (accepts : clause.Accepts) (result : Option (Nat × F)) :
    Call.AllInOrder (clause.lastCalls result) front ∧
      Call.amendAll (clause.lastCalls result) front =
        front ++ [clause.step (result.map (·.2))] := by
  cases result with
  | none => exact calls_register front accepts
  | some result =>
      obtain ⟨place, body⟩ := result
      have before := amendAll_qualifiers (clause.qualifiers.take place) front
        { ownTarget := clause.target, source := .function clause.source }
      have attached := Call.modify_last front
        { ownTarget := clause.target, source := .function clause.source,
          qualifiers := [] ++ clause.qualifiers.take place }
        fun step => { step with block := .function body }
      refine ⟨⟨⟨accepts.target, clause.source, rfl⟩, ?_⟩, ?_⟩
      · refine (Call.allInOrder_append _ _ _).mpr ⟨?_, ?_⟩
        · exact allInOrder_qualifiers _ front _ fun target thunk member =>
            accepts.definitions target thunk (List.mem_of_mem_take member)
        · change Call.AllInOrder _ (Call.amendAll _ (front ++ _))
          rw [before]
          refine ⟨⟨_, List.getLast?_concat, rfl⟩, ?_⟩
          rw [Call.amend, attached]
          exact allInOrder_qualifiers _ front _ fun target thunk member =>
            accepts.definitions target thunk (List.mem_of_mem_drop member)
      · rw [lastCalls, Call.amendAll_append]
        change Call.amendAll _ (Call.amend _ (Call.amendAll _ (front ++ _))) = _
        rw [before, Call.amend, attached, amendAll_qualifiers]
        simp [step]

end Clause

theorem clauses_register {clauses : List (Clause F)}
    (accepts : ∀ clause ∈ clauses, clause.Accepts) (front : List (Step F)) :
    Call.AllInOrder (clauses.flatMap Clause.calls) front ∧
      Call.amendAll (clauses.flatMap Clause.calls) front =
        front ++ clauses.map (·.step none) := by
  induction clauses generalizing front with
  | nil => simp [Call.AllInOrder, Call.amendAll]
  | cons clause rest ih =>
      rw [List.forall_mem_cons] at accepts
      have first := clause.calls_register front accepts.1
      have others := ih accepts.2 (front ++ [clause.step none])
      rw [List.flatMap_cons, Call.allInOrder_append, Call.amendAll_append, first.2, others.2]
      exact ⟨⟨first.1, others.1⟩, by simp⟩

theorem Holding.leadsTo {context : Nat} {steps : List (Step F)} {allowed : List Nat → Prop}
    {env : Env F} {now : World F σ} (holds : Holding context steps allowed env now) :
    now.LeadsTo ((List.range' 0 steps.length).map (⟨context, ·⟩)) steps := by
  refine List.forall₂_iff_get.mpr ⟨by simp, fun position _ inside => ?_⟩
  simp [holds.step?, inside]

/-- Definitions before the first step bind their slots at once, and register nothing. -/
theorem ends_performDefinitions {call : F → Option (Value F) → Action F σ (Value F)}
    {reading : Reading F} {keys later : List String} {context : Nat} {allowed : List Nat → Prop}
    {definitions : List (Target × Callback F)}
    (answers : ∀ definition ∈ definitions,
      Answers call reading keys context allowed definition.2)
    (plain : ∀ definition ∈ definitions, definition.1.IsPlain) (different : keys.Nodup)
    (env : Env F) {bound : Env F}
    (placed : env.map (·.1) ++ (definitions.flatMap (·.1.slotKeys) ++ later) = keys)
    (found : reading.bind definitions env = some bound)
    {now : World F σ} (holds : Holding context [] allowed env now) :
    (Call.performAll (.standard call) context
      (definitions.map fun definition => .define definition.1 definition.2)).Ends now
      (fun _ after => bound.map (·.1) ++ later = keys ∧ Holding context [] allowed bound after)
      fun _ _ => False := by
  induction definitions generalizing env now with
  | nil =>
      cases found
      exact ⟨placed, holds⟩
  | cons definition rest ih =>
      obtain ⟨target, thunk⟩ := definition
      rw [List.forall_mem_cons] at answers plain
      simp only [Reading.bind, Option.bind_eq_bind, Option.bind_eq_some_iff] at found
      obtain ⟨defined, asked, found⟩ := found
      have empty : now.steps context = [] := by simp [World.steps, holds.registered]
      have fits := plain.1.fits defined
      have inside : (env.map (·.1) ++ target.slotKeys).Nodup := by
        rw [← placed, List.flatMap_cons, ← List.append_assoc, ← List.append_assoc] at different
        exact (List.nodup_append.mp (List.nodup_append.mp different).1).1
      rw [List.map_cons, Call.performAll, Call.perform, ends_bind]
      refine Ends.of_outcome_eq ?_
        (Context.outcome_define_of_empty _ thunk plain.1.accepts empty)
      rw [ends_bind]
      refine (holds.ends _ (answers.1 none env defined asked) placed).imp ?_
      rintro value reached ⟨rfl, held⟩
      refine (held.deposit plain.1.slotsOnly fits inside).imp fun _ after deposited => ?_
      refine ih answers.2 plain.2 _ ?_ found deposited
      rw [List.map_append, Target.keys_bindings target value fits]
      simpa using placed

namespace Comprehension

variable {comprehension : Comprehension F}

/-- The functions of a comprehension follow a reading. Definitions are made early, while the context
of the comprehension is open, and all other functions are called late, when it is closed again. -/
structure Follows (call : F → Option (Value F) → Action F σ (Value F)) (reading : Reading F)
    (context : Nat) (early late : List Nat → Prop) (comprehension : Comprehension F) : Prop where
  definitions : ∀ definition ∈ comprehension.definitions,
    Answers call reading comprehension.slotKeys context early definition.2
  clauses : ∀ clause ∈ comprehension.clauses,
    clause.Follows call reading comprehension.slotKeys context late
  last : comprehension.last.Follows call reading comprehension.slotKeys context late
  result : ∀ result ∈ comprehension.result,
    Answers call reading comprehension.slotKeys context late (.function result.2)

theorem calls_register (accepts : ∀ clause ∈ comprehension.clauses, clause.Accepts)
    (lastAccepts : comprehension.last.Accepts) :
    Call.AllInOrder (comprehension.clauses.flatMap Clause.calls ++
        comprehension.last.lastCalls comprehension.result) [] ∧
      Call.amendAll (comprehension.clauses.flatMap Clause.calls ++
        comprehension.last.lastCalls comprehension.result) [] = comprehension.steps := by
  have first := clauses_register accepts []
  have others := comprehension.last.lastCalls_register
    ([] ++ comprehension.clauses.map (·.step none)) lastAccepts comprehension.result
  rw [Call.allInOrder_append, Call.amendAll_append, first.2, others.2]
  exact ⟨⟨first.1, others.1⟩, rfl⟩

theorem misplacedBlock?_steps : misplacedBlock? comprehension.steps = none := by
  simp [misplacedBlock?, steps, Clause.step, Step.hasBlock, Callback.isNull]

/-- A comprehension registers its steps, while its definitions are bound. -/
theorem ends_steps {call : F → Option (Value F) → Action F σ (Value F)} {reading : Reading F}
    {start : World F σ} {early late : List Nat → Prop}
    (opening : early (start.contexts.length :: start.opened)) (closing : late start.opened)
    (plain : comprehension.IsPlain)
    (follows : comprehension.Follows call reading start.contexts.length early late) {env : Env F}
    (found : reading.bind comprehension.definitions [] = some env) :
    (comprehension.description (.standard call)).steps.Ends start
      (fun refs after =>
        refs = (List.range' 0 comprehension.steps.length).map (⟨start.contexts.length, ·⟩) ∧
          env.map (·.1) ++ (comprehension.clauses.flatMap Clause.slotKeys ++
            comprehension.last.slotKeys) = comprehension.slotKeys ∧
          Holding start.contexts.length comprehension.steps late env after)
      fun _ _ => False := by
  have opened : Holding start.contexts.length [] early []
      { start with contexts := start.contexts ++ [[]],
                   opened := start.contexts.length :: start.opened } :=
    ⟨by simp [World.Binds], by simp, opening⟩
  obtain ⟨inOrder, registers⟩ := calls_register
    (fun clause member => (plain.clauses clause member).accepts) plain.last.accepts
  have defined := ends_performDefinitions follows.definitions plain.definitions plain.different
    [] rfl found opened
  simp only [Description.steps, Context.withNew, Context.create, ends_bind, ends_keepOpened,
    ends_get, ends_modify, ends_pure, description, calls, List.append_assoc,
    Call.performAll_append _ (comprehension.definitions.map _)]
  refine defined.imp ?_
  rintro _ reached ⟨placed, held⟩
  have empty : reached.steps start.contexts.length = [] := by
    simp [World.steps, held.registered]
  obtain ⟨known, -⟩ := List.getElem?_eq_some_iff.mp held.registered
  have performed := Call.outcome_performAll (.standard call) _ known (empty ▸ inOrder)
  unfold Ends
  rw [performed]
  have registered : (reached.contexts.modify start.contexts.length (Call.amendAll
      (comprehension.clauses.flatMap Clause.calls ++
        comprehension.last.lastCalls comprehension.result)))[start.contexts.length]? =
      some comprehension.steps := by
    rw [List.getElem?_modify_eq, held.registered, Option.map_eq_map, Option.map_some,
      registers]
  refine ⟨?_, placed, held.binds, registered, closing⟩
  simp [World.steps, World.modifySteps, registered, List.range_eq_range']

/-- A comprehension gives the list that it is read as, whatever the slots held before: when the
reading of its clauses as nested loops, with an environment that nothing overwrites, gives items,
then chaining its steps gives the list monad of these items. -/
theorem chain_eq_items {call : F → Option (Value F) → Action F σ (Value F)} (reading : Reading F)
    {start : World F σ} (early late : List Nat → Prop)
    (opening : early (start.contexts.length :: start.opened)) (closing : late start.opened)
    (plain : comprehension.IsPlain)
    (follows : comprehension.Follows call reading start.contexts.length early late)
    {items : List (Value F)} (found : comprehension.items reading = some items) :
    ∃ number after,
      ((comprehension.description (.standard call)).chain (.standard call)).outcome start =
        (.ok (.listMonad number false items), after) := by
  simp only [Comprehension.items, Option.bind_eq_bind, Option.bind_eq_some_iff] at found
  obtain ⟨env, bound, found⟩ := found
  have chained : ((comprehension.description (.standard call)).chain (.standard call)).Ends start
      (fun value _ => ∃ number, value = .listMonad number false items) fun _ _ => False := by
    rw [Description.chain, ends_bind]
    refine (ends_steps opening closing plain follows bound).imp ?_
    rintro _ reached ⟨rfl, placed, held⟩
    have checked := outcome_checkStructure held.leadsTo
    rw [if_neg (by simp [steps]), misplacedBlock?_steps] at checked
    rw [chainSteps_eq_check, ends_bind]
    unfold Ends
    rw [checked]
    have lengths : comprehension.steps.length = comprehension.clauses.length + 1 := by simp [steps]
    rw [lengths]
    refine (ends_chainFrom follows.clauses follows.last ?_ plain.clauses plain.last
      plain.different [] rfl 0 placed found held).imp fun _ _ given => given.1
    intro body member
    obtain ⟨result, given, rfl⟩ := Option.map_eq_some_iff.mp member
    exact follows.result result given
  obtain ⟨value, after, reached, number, rfl⟩ := chained.exists_ok
  exact ⟨number, after, reached⟩

/-- Functions that give a fixed list, or else what a slot holds. -/
def slotCall : Option String → Option (Value (Option String)) →
    Action (Option String) Unit (Value (Option String))
  | none, _ => return .listMonad none false [.int 0, .int 1, .int 2]
  | some key, _ => return (← get).slot key

def slotReading : Reading (Option String) where
  items body _ := if body.isNone then some [.int 0, .int 1, .int 2] else none
  answer body _ env :=
    match body with
    | none => some (.listMonad none false [.int 0, .int 1, .int 2])
    | some key => (env.find? (·.1 = key)).map (·.2)

/-- Two clauses; the first drops what is zero. -/
def nonzeroTwice : Comprehension (Option String) where
  definitions := [(.slot "a" none, .function none)]
  clauses :=
    [{ target := .slot "x" none
       source := none
       qualifiers := [.filter (.function (some "x")),
         .define (.slot "y" none) (.function (some "x"))] }]
  last := { target := .discard, source := none, qualifiers := [.filter (.function (some "a"))] }
  result := some (0, some "y")

theorem answers_slotCall (keys : List String) (context : Nat) (body : Option String) :
    Answers slotCall slotReading keys context (fun _ => True) (.function body) := by
  intro argument env result asked now _ binds
  have undisturbed : Undisturbed keys context now now := ⟨fun _ _ => rfl, fun _ => id⟩
  cases body with
  | none =>
      cases asked
      exact ⟨rfl, undisturbed, trivial⟩
  | some key =>
      obtain ⟨binding, found, rfl⟩ := Option.map_eq_some_iff.mp asked
      have named : binding.1 = key := by simpa using List.find?_some found
      refine ⟨?_, undisturbed, trivial⟩
      rw [← named]
      exact binds binding (List.mem_of_find?_eq_some found)

theorem draws_slotCall (keys : List String) (context : Nat) :
    Draws slotCall slotReading keys context (fun _ => True) none := by
  intro env items drawn now _ _
  cases drawn
  exact ⟨⟨none, rfl⟩, ⟨fun _ _ => rfl, fun _ => id⟩, trivial⟩

theorem chain_nonzeroTwice :
    ∃ number after,
      ((nonzeroTwice.description (.standard slotCall)).chain (.standard slotCall)).outcome
          (World.setSlot { client := () } "x" (.str (.plain "left over"))) =
        (.ok (.listMonad number false
          [.int 1, .int 1, .int 1, .int 2, .int 2, .int 2]), after) := by
  have clauseFollows : ∀ clause : Clause (Option String), clause.source = none →
      (∀ qualifier ∈ clause.qualifiers, ∃ key, qualifier.callback = .function (some key)) →
        clause.Follows slotCall slotReading nonzeroTwice.slotKeys 0 fun _ => True := by
    intro clause source callbacks
    refine ⟨source ▸ draws_slotCall _ _, fun qualifier member => ?_⟩
    obtain ⟨key, same⟩ := callbacks qualifier member
    exact same ▸ answers_slotCall _ _ _
  refine chain_eq_items slotReading (fun _ => True) (fun _ => True)
    trivial trivial ⟨?_, ?_, ?_, by decide⟩ ⟨?_, ?_, ?_, ?_⟩ rfl
  · simp [nonzeroTwice, Target.IsPlain]
  · simp [nonzeroTwice, Clause.IsPlain, Target.IsPlain, Qualifier.IsPlain]
  · simp [nonzeroTwice, Clause.IsPlain, Target.IsPlain, Qualifier.IsPlain]
  · simp only [nonzeroTwice, List.mem_singleton, forall_eq]
    exact answers_slotCall _ _ _
  · simp only [nonzeroTwice, List.mem_singleton, forall_eq]
    exact clauseFollows _ rfl (by simp [Qualifier.callback])
  · exact clauseFollows _ rfl (by simp [nonzeroTwice, Qualifier.callback])
  · simp only [nonzeroTwice, Option.mem_some_iff, forall_eq']
    exact answers_slotCall _ _ _

def meddlingValue : Option Bool → Value (Option Bool)
  | none => .bool false
  | some false => .listMonad none false [.int 1, .int 2]
  | some true => .listMonad none false [.int 1]

/-- The last of the three also filters the last step of the first context. -/
def meddlingCall : Option Bool → Option (Value (Option Bool)) →
    Action (Option Bool) Unit (Value (Option Bool))
  | some true, _ => do
      Context.restrict 0 (.function none)
      return meddlingValue (some true)
  | body, _ => return meddlingValue body

def meddlingReading : Reading (Option Bool) where
  items body _ :=
    match meddlingValue body with
    | .listMonad _ _ items => some items
    | _ => none
  answer body _ _ := some (meddlingValue body)

/-- Two clauses without qualifiers. The source of the second registers a filter while the steps are
chained. -/
def meddledPair : Comprehension (Option Bool) where
  clauses := [{ target := .slot "x" none, source := some false }]
  last := { target := .slot "y" none, source := some true }

/-- Where a source amends the steps that are being chained, they do not give what they are read as,
though each function gives one value always and writes no slot. -/
theorem meddledPair_ne_items :
    meddledPair.IsPlain ∧
    (∀ now : World (Option Bool) Unit, now.steps 0 ≠ [] → ∀ body argument,
      (meddlingCall body argument).Ends now
        (fun value after => value = meddlingValue body ∧ after.slots = now.slots)
        fun _ _ => False) ∧
    meddledPair.items meddlingReading = some [.int 1, .int 1] ∧
    (((meddledPair.description (.standard meddlingCall)).chain (.standard meddlingCall)).outcome
      { client := () }).1 = .ok (.listMonad none false [.int 1]) := by
  refine ⟨⟨?_, ?_, ?_, by decide⟩, fun now registered body argument => ?_, rfl, rfl⟩
  · simp [meddledPair]
  · simp [meddledPair, Clause.IsPlain, Target.IsPlain]
  · simp [meddledPair, Clause.IsPlain, Target.IsPlain]
  · match body with
    | none => exact ⟨rfl, rfl⟩
    | some false => exact ⟨rfl, rfl⟩
    | some true =>
        have amended : (Context.restrict 0 (.function none)).outcome now =
            (pure () : Action _ _ PUnit).outcome
              (now.modifySteps 0 (Call.restrict (.function none)).amend) :=
          Call.outcome_perform (.standard meddlingCall) (.restrict (.function none)) registered
        rw [meddlingCall, ends_bind]
        refine Ends.of_outcome_eq ?_ amended
        exact ⟨rfl, rfl⟩

end Comprehension

end Bindery
