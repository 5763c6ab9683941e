import Bindery.Proofs.Client

set_option autoImplicit false

namespace Bindery

open Bindery.Action

variable {F σ α : Type}

namespace Call

def qualifier? : Call F → Option (Qualifier F)
  | .restrict predicate => some (.filter predicate)
  | .define target thunk => some (.define target thunk)
  | _ => none

def block? : Call F → Option (Callback F)
  | .conclude block => some block
  | _ => none

def defined? : Call F → Option Target
  | .define target _ => some target
  | _ => none

/-- A source with its target, after a call on the step. A filter or a definition works on what the
source gives, and a definition pairs the target with its own. -/
def rewrite (meaning : Meaning F σ) (index : Nat) :
    Action F σ (Value F) × Target → Call F → Action F σ (Value F) × Target
  | (source, target), .restrict predicate =>
      (source >>= applyFilter meaning index target predicate, target)
  | (source, target), .define added thunk =>
      (source >>= applyDefinition meaning index target added thunk, .tuple [target, added])
  | unchanged, _ => unchanged

end Call

/-- A successful draw with the calls that follow it, up to the next draw. -/
structure Stretch (F : Type) where
  target : Target
  source : Callback F
  calls : List (Call F)

/-- The calls that come before the first draw, and the stretches that the draws begin. -/
def stretches : List (Call F) → List (Call F) × List (Stretch F)
  | [] => ([], [])
  | .draw target source :: rest =>
      ([], ⟨target, source, (stretches rest).1⟩ :: (stretches rest).2)
  | call :: rest => (call :: (stretches rest).1, (stretches rest).2)

/-- What a stretch of calls makes of a step. The target of the draw is nested to the left, once for
each definition. Filters and definitions are counted. The source is rewritten by each call in turn.
The block of results is the one that was attached last, or none. -/
structure Stretch.Makes (stretch : Stretch F) (step : Step F) : Prop where
  target : step.target = (stretch.calls.filterMap Call.defined?).foldl
    (fun reached added => .tuple [reached, added]) stretch.target
  filters : step.filters = stretch.calls.countP fun call => call.verb = .restrict
  definitions : step.definitions = stretch.calls.countP fun call => call.verb = .define
  source : ∀ {σ : Type} (meaning : Meaning F σ) (index : Nat),
    (step.generate meaning index, step.target) =
      stretch.calls.foldl (Call.rewrite meaning index)
        (stretch.source.call meaning none, stretch.target)
  block : step.block = (stretch.calls.filterMap Call.block?).getLast?.getD (.object .null)

def Step.followed (step : Step F) (calls : List (Call F)) : Step F :=
  { step with
    qualifiers := step.qualifiers ++ calls.filterMap Call.qualifier?
    block := (calls.filterMap Call.block?).getLast?.getD step.block }

def Stretch.step (stretch : Stretch F) : Step F :=
  Step.followed { ownTarget := stretch.target, source := stretch.source } stretch.calls

theorem foldl_retarget (calls : List (Call F)) (target : Target) :
    (calls.filterMap Call.qualifier?).foldl Qualifier.retarget target =
      (calls.filterMap Call.defined?).foldl (fun reached added => .tuple [reached, added])
        target := by
  induction calls generalizing target with
  | nil => rfl
  | cons call rest ih => cases call <;> exact ih _

theorem foldl_rewrite (meaning : Meaning F σ) (index : Nat) (calls : List (Call F))
    (source : Action F σ (Value F)) (target : Target) :
    calls.foldl (Call.rewrite meaning index) (source, target) =
      (source >>= applyQualifiers meaning index target (calls.filterMap Call.qualifier?),
        (calls.filterMap Call.qualifier?).foldl Qualifier.retarget target) := by
  induction calls generalizing source target with
  | nil =>
      simp only [List.filterMap_nil, List.foldl_nil, Prod.mk.injEq, and_true]
      exact (bind_pure source).symm
  | cons call rest ih =>
      cases call with
      | restrict predicate =>
          simp only [List.foldl_cons, Call.rewrite, ih, bind_assoc]
          rfl
      | define added thunk =>
          simp only [List.foldl_cons, Call.rewrite, ih, bind_assoc]
          rfl
      | _ => exact ih source target

theorem Stretch.makes_step (stretch : Stretch F) : stretch.Makes stretch.step where
  target := foldl_retarget stretch.calls stretch.target
  filters := by
    change (([] ++ stretch.calls.filterMap Call.qualifier?).countP _) = _
    rw [List.nil_append, List.countP_filterMap]
    exact List.countP_congr fun call _ => by
      cases call <;> simp [Call.qualifier?, Call.verb, Qualifier.isFilter]
  definitions := by
    change (([] ++ stretch.calls.filterMap Call.qualifier?).countP _) = _
    rw [List.nil_append, List.countP_filterMap]
    exact List.countP_congr fun call _ => by
      cases call <;> simp [Call.qualifier?, Call.verb, Qualifier.isFilter]
  source meaning index := (foldl_rewrite meaning index stretch.calls _ stretch.target).symm
  block := rfl

/-- Calls on a context with steps: those before the next draw are made on the last step, and each
draw begins a stretch. -/
theorem amendAll_eq_stretches (calls : List (Call F)) (front : List (Step F)) (step : Step F) :
    Call.amendAll calls (front ++ [step]) =
      front ++ [step.followed (stretches calls).1] ++ (stretches calls).2.map Stretch.step := by
  induction calls generalizing front step with
  | nil => simp [Call.amendAll, stretches, Step.followed]
  | cons call rest ih =>
      rw [Call.amendAll, List.foldl_cons, ← Call.amendAll]
      cases call with
      | draw target source =>
          have drawn := ih (front ++ [step]) { ownTarget := target, source }
          simpa [Call.amend, stretches, Stretch.step, Step.followed] using drawn
      | restrict predicate =>
          rw [Call.amend, Call.modify_last, ih]
          simp [stretches, Step.followed, Step.qualified, Call.qualifier?, Call.block?]
      | define target thunk =>
          rw [Call.amend, Call.modify_last, ih]
          simp [stretches, Step.followed, Step.qualified, Call.qualifier?, Call.block?]
      | conclude block =>
          rw [Call.amend, Call.modify_last, ih]
          simp [stretches, Step.followed, Call.block?, List.getLast?_cons]
          rfl

/-- The steps that calls on a new context leave behind are those of the stretches. -/
theorem amendAll_nil (calls : List (Call F)) :
    Call.amendAll calls [] = (stretches calls).2.map Stretch.step := by
  induction calls with
  | nil => rfl
  | cons call rest ih =>
      rw [Call.amendAll, List.foldl_cons, ← Call.amendAll]
      cases call with
      | draw target source => exact amendAll_eq_stretches rest [] { ownTarget := target, source }
      | _ => exact ih

@[simp] theorem callsOn_append (context : Nat) (first second : List (Nat × Call F)) :
    callsOn context (first ++ second) = callsOn context first ++ callsOn context second := by
  simp [callsOn]

@[simp] theorem callsOn_cons_self (context : Nat) (call : Call F) (rest : List (Nat × Call F)) :
    callsOn context ((context, call) :: rest) = call :: callsOn context rest := by
  simp [callsOn]

theorem callsOn_cons_of_ne {context other : Nat} (distinct : context ≠ other) (call : Call F)
    (rest : List (Nat × Call F)) :
    callsOn other ((context, call) :: rest) = callsOn other rest := by
  simp [callsOn, distinct]

/-- Each context has the steps that its own calls in the history leave behind. -/
def AccountedFor (contexts : List (List (Step F))) (history : List (Nat × Call F)) : Prop :=
  ∀ context, (contexts[context]?).getD [] = Call.amendAll (callsOn context history) []

/-- The steps of all contexts are accounted for by a history that begins as an earlier one, and so
they were at each moment that is recorded. The open contexts are those around, and they exist. -/
structure Accounted (earlier : List (Nat × Call F)) (around : List Nat)
    (world : World F (σ × Record F)) : Prop where
  steps : AccountedFor world.contexts world.record.history
  moments : ∀ moment ∈ world.record.moments, AccountedFor moment.contexts moment.history
  begins : earlier <+: world.record.history
  opened : world.opened = around
  known : ∀ context ∈ around, context < world.contexts.length

variable {earlier : List (Nat × Call F)} {around : List Nat} {world : World F (σ × Record F)}

theorem accounted_ignoresTargets (earlier : List (Nat × Call F)) (around : List Nat) :
    IgnoresTargets (Accounted (σ := σ) earlier around) :=
  fun _ _ _ _ _ _ accounted =>
    ⟨accounted.steps, accounted.moments, accounted.begins, accounted.opened, accounted.known⟩

theorem Accounted.note (accounted : Accounted earlier around world) (place : Place F)
    (stood : List Nat) :
    ((Client.note place stood).outcome world).2.record.history = world.record.history ∧
      Accounted earlier around ((Client.note place stood).outcome world).2 := by
  refine ⟨rfl, accounted.steps, ?_, accounted.begins, accounted.opened, accounted.known⟩
  intro moment member
  rcases List.mem_append.mp member with before | now
  · exact accounted.moments moment before
  · cases List.mem_singleton.mp now
    exact accounted.steps

theorem note_preserves (place : Place F) (stood : List Nat) :
    Preserves (Accounted (σ := σ) earlier around) (Client.note place stood) :=
  Preserves.of_outcome fun _ accounted => (accounted.note place stood).2

theorem AccountedFor.create {contexts : List (List (Step F))} {history : List (Nat × Call F)}
    (accounted : AccountedFor contexts history) : AccountedFor (contexts ++ [[]]) history := by
  intro context
  rw [← accounted context]
  rcases Nat.lt_trichotomy context contexts.length with earlier | rfl | later
  · rw [List.getElem?_append_left earlier]
  · simp
  · rw [List.getElem?_eq_none (by simp; omega), List.getElem?_eq_none (by omega)]

theorem Accounted.create (accounted : Accounted earlier around world) :
    Accounted earlier around { world with contexts := world.contexts ++ [[]] } := by
  refine ⟨accounted.steps.create, accounted.moments, accounted.begins, accounted.opened, ?_⟩
  intro context member
  have below := accounted.known context member
  simp only [List.length_append, List.length_singleton]
  omega

theorem Accounted.opening (accounted : Accounted earlier around world) :
    Accounted earlier (world.contexts.length :: around) world.opening := by
  have created := accounted.create
  refine ⟨created.steps, created.moments, created.begins,
    congrArg (world.contexts.length :: ·) accounted.opened, ?_⟩
  intro context member
  rcases List.mem_cons.mp member with rfl | outer
  · simp [World.opening]
  · exact created.known context outer

theorem Accounted.ends_locate (accounted : Accounted earlier around world) (named : Option Nat)
    (verb : Verb) :
    (Client.locate named verb).Ends world
      (fun context after => after = world ∧ context < world.contexts.length)
      fun _ after => after = world := by
  refine (Client.ends_locate named verb world).mono ?_ fun _ _ same => same
  rintro context _ ⟨rfl, ⟨-, exists_⟩ | ⟨-, innermost⟩⟩
  · exact ⟨rfl, exists_⟩
  · rw [accounted.opened] at innermost
    exact ⟨rfl, accounted.known context (List.mem_of_mem_head? innermost)⟩

theorem AccountedFor.amend {contexts : List (List (Step F))} {history : List (Nat × Call F)}
    (accounted : AccountedFor contexts history) (call : Call F) {context : Nat}
    (known : context < contexts.length) :
    AccountedFor (contexts.modify context call.amend) (history ++ [(context, call)]) := by
  intro other
  have own := accounted other
  by_cases same : context = other
  · subst same
    rw [List.getElem?_eq_getElem known, Option.getD_some] at own
    rw [callsOn_append, Call.amendAll_append, ← own, callsOn_cons_self, List.getElem?_modify_eq,
      List.getElem?_eq_getElem known]
    rfl
  · have unchanged : (contexts.modify context call.amend)[other]? = contexts[other]? := by
      simp [same]
    rw [callsOn_append, callsOn_cons_of_ne same, unchanged, own]
    simp [callsOn]

/-- A definition that comes before all steps of its context leaves no trace, wherever it is
entered. -/
theorem AccountedFor.enter_early {contexts : List (List (Step F))}
    {before after : List (Nat × Call F)} (accounted : AccountedFor contexts (before ++ after))
    {call : Call F} {context : Nat} (silent : call.amend [] = [])
    (empty : Call.amendAll (callsOn context before) [] = []) :
    AccountedFor contexts (before ++ (context, call) :: after) := by
  intro other
  rw [accounted other]
  by_cases same : context = other
  · subst same
    have skipped : Call.amendAll (call :: callsOn context after) [] =
        Call.amendAll (callsOn context after) [] := by
      rw [Call.amendAll, List.foldl_cons, silent, ← Call.amendAll]
    rw [callsOn_append, callsOn_append, callsOn_cons_self, Call.amendAll_append,
      Call.amendAll_append, empty, skipped]
  · rw [callsOn_append, callsOn_append, callsOn_cons_of_ne same]

theorem insertIdx_length_append {β : Type} (first second : List β) (entry : β) :
    (first ++ second).insertIdx first.length entry = first ++ entry :: second := by
  induction first with
  | nil => rfl
  | cons head rest ih => simp [ih]

/-- A call that is entered where the history ended when it was made. -/
theorem Accounted.enter {after : World F (σ × Record F)} {before : List (Nat × Call F)}
    (accounted : Accounted before around after) (begins : earlier <+: before) {context : Nat}
    {call : Call F} (silent : call.amend [] = [])
    (empty : Call.amendAll (callsOn context before) [] = []) :
    Accounted earlier around ((Client.enter before.length context call).outcome after).2 := by
  obtain ⟨rest, whole⟩ := accounted.begins
  have entered : ((Client.enter before.length context call).outcome after).2.record.history =
      before ++ (context, call) :: rest := by
    change after.record.history.insertIdx before.length (context, call) = _
    rw [← whole, insertIdx_length_append]
  refine ⟨?_, accounted.moments, ?_, accounted.opened, accounted.known⟩
  · rw [entered]
    have steps := accounted.steps
    rw [← whole] at steps
    exact steps.enter_early silent empty
  · rw [entered]
    exact begins.trans (List.prefix_append before _)

theorem steps_of_early {call : Call F} {steps : List (Step F)} {early : Target × Callback F}
    (found : call.early? steps = some early) : steps = [] := by
  cases call with
  | define target thunk =>
      cases steps with
      | nil => rfl
      | cons step rest => cases found
  | _ => cases found

theorem amend_of_early {call : Call F} {early : Target × Callback F}
    (found : call.early? [] = some early) : call.amend [] = [] := by
  cases call with
  | define target thunk => rfl
  | _ => cases found

theorem Accounted.of_prefix {before : List (Nat × Call F)}
    (accounted : Accounted before around world)
    (begins : earlier <+: before) : Accounted earlier around world :=
  { accounted with begins := begins.trans accounted.begins }

theorem Accounted.register (accounted : Accounted earlier around world) (call : Call F)
    {context : Nat} (known : context < world.contexts.length) :
    Accounted earlier around ((Client.enter world.record.history.length context call).outcome
      (call.register context world)).2 := by
  have entered : ((Client.enter world.record.history.length context call).outcome
      (call.register context world)).2.record.history =
        world.record.history ++ [(context, call)] :=
    List.insertIdx_length_self
  refine ⟨?_, accounted.moments, ?_, accounted.opened, ?_⟩
  · rw [entered]
    exact accounted.steps.amend call known
  · rw [entered]
    exact accounted.begins.trans (List.prefix_append _ _)
  · intro other member
    change other < (world.contexts.modify context call.amend).length
    rw [List.length_modify]
    exact accounted.known other member

/-- A call is entered into the history if it succeeds, and then the steps are those that the history
with it leaves behind. -/
theorem accounted_submit {meaning : Meaning F (σ × Record F)}
    (functions : ∀ earlier (callback : Callback F) argument,
      Preserves (Accounted earlier around) (callback.call meaning argument))
    (earlier : List (Nat × Call F)) (named : Option Nat) (call : Call F) :
    Preserves (Accounted earlier around) (Client.submit meaning around named call) := by
  intro world accounted
  rw [Client.submit, ends_bind]
  refine (accounted.ends_locate named call.verb).mono ?_ ?_
  · rintro context found ⟨rfl, known⟩
    obtain ⟨-, noted⟩ := accounted.note (.sent named context call) around
    rw [ends_bind]
    change Ends _ ((Client.note (.sent named context call) around).outcome found).2 _ _
    change context <
      ((Client.note (.sent named context call) around).outcome found).2.contexts.length at known
    generalize ((Client.note (.sent named context call) around).outcome found).2 = reached
      at noted known ⊢
    rw [ends_bind, ends_get, ends_bind]
    have performed : (call.perform meaning context).outcome reached = _ :=
      call.outcome_perform_eq meaning
    cases refused : call.refusal? (reached.steps context) with
    | some error =>
        rw [refused] at performed
        unfold Ends
        rw [performed]
        exact noted
    | none =>
        rcases early : call.early? (reached.steps context) with _ | ⟨target, thunk⟩
        · rw [refused, early] at performed
          unfold Ends
          rw [performed]
          exact noted.register call known
        · rw [refused, early] at performed
          -- While the definition runs its function, later calls may be entered.
          have begun : Accounted reached.record.history around reached :=
            { noted with begins := List.prefix_rfl }
          have ran := ((functions reached.record.history thunk none).bind fun value =>
            deposit_preserves (accounted_ignoresTargets _ around) target value) reached begun
          have empty : reached.steps context = [] := steps_of_early early
          have silent : call.amend [] = [] := amend_of_early (empty ▸ early)
          refine (ran.mono (fun _ after kept => ?_) fun _ after kept =>
            kept.of_prefix noted.begins).of_outcome_eq performed
          exact kept.enter noted.begins silent ((noted.steps context).symm.trans empty)
  · rintro error _ rfl
    exact accounted

theorem accounted_invariant :
    Client.Invariant (Accounted (F := F) (σ := σ)) where
  ignores := accounted_ignoresTargets
  between _ around := note_preserves .between around
  function _ around := note_preserves .function around
  aside _ _ _ _ := Preserves.of_outcome fun _ accounted =>
    ⟨accounted.steps, accounted.moments, accounted.begins, accounted.opened, accounted.known⟩
  create _ _ := preserves_get.bind fun _ =>
    (preserves_modify fun _ accounted => accounted.create).bind fun _ => preserves_pure _
  submit functions earlier named call := accounted_submit functions earlier named call
  opens _ around world accounted :=
    (accounted.opening.note .block (world.contexts.length :: around)).2
  closes _ _ _ _ _ accounted reached :=
    ⟨reached.steps, reached.moments, reached.begins, accounted.opened,
      fun other member => reached.known other (List.mem_cons_of_mem _ member)⟩

theorem length_stretches (calls : List (Call F)) :
    (stretches calls).2.length = calls.countP fun call => call.verb = .draw := by
  induction calls with
  | nil => rfl
  | cons call rest ih => cases call <;> simp [stretches, Call.verb, ih]

/-- The steps are what the calls made of them: one step for each draw, in order, and each is made by
the calls up to the next draw. -/
structure StepsOf (calls : List (Call F)) (steps : List (Step F)) : Prop where
  length : steps.length = calls.countP fun call => call.verb = .draw
  eq : steps = (stretches calls).2.map Stretch.step
  made : List.Forall₂ Stretch.Makes (stretches calls).2 steps

theorem AccountedFor.stepsOf {contexts : List (List (Step F))} {history : List (Nat × Call F)}
    (accounted : AccountedFor contexts history) (context : Nat) :
    StepsOf (callsOn context history) ((contexts[context]?).getD []) := by
  have same : (contexts[context]?).getD [] =
      (stretches (callsOn context history)).2.map Stretch.step :=
    (accounted context).trans (amendAll_nil _)
  refine ⟨?_, same, ?_⟩
  · rw [same, List.length_map, length_stretches]
  · rw [same, List.forall₂_map_right_iff, List.forall₂_same]
    exact fun stretch _ => stretch.makes_step

/-- At every moment of a run that begins without contexts, the steps of each context are what its
own successful calls made of them, in the order in which the calls were made. And a call that is
refused changes nothing, an early definition only captures a value, and any other call amends the
steps of its own context. -/
theorem Client.steps_eq_history (text : F → Option (Value F) → Client F σ) (fuel : Nat)
    (client : Client F σ) (start : World F σ) :
    (let fresh : World F σ := { start with contexts := [], opened := [] };
      let ended := ((client.run (answer text fuel) []).outcome (fresh.withRecord {})).2;
      (∀ context, StepsOf (callsOn context ended.record.history) (ended.steps context)) ∧
      ∀ moment ∈ ended.record.moments, ∀ context,
        StepsOf (callsOn context moment.history) ((moment.contexts[context]?).getD [])) ∧
    ∀ (meaning : Meaning F (σ × Record F)) (call : Call F) (context : Nat)
      (world : World F (σ × Record F)),
      (call.perform meaning context).outcome world =
        match call.refusal? (world.steps context), call.early? (world.steps context) with
        | some error, _ => (.error error, world)
        | none, some (target, thunk) =>
            (thunk.call meaning none >>= fun value => deposit target value).outcome world
        | none, none => (.ok (), call.register context world) := by
  refine ⟨?_, fun meaning call context world => call.outcome_perform_eq meaning⟩
  intro fresh
  have began : Accounted [] [] (fresh.withRecord {}) :=
    { steps := fun _ => rfl
      moments := nofun
      begins := List.prefix_rfl
      opened := rfl
      known := nofun }
  have kept := (accounted_invariant.run (accounted_invariant.answer text fuel) client []
    []).outcome began
  exact ⟨fun context => kept.steps.stepsOf context,
    fun moment member context => (kept.moments moment member).stepsOf context⟩

inductive Sifting where
  | source
  | test
  | block

/-- The source gives two numbers, the test rejects the first one, and the block gives what the
target holds. -/
def Sifting.text : Sifting → Option (Value Sifting) → Client Sifting Unit
  | .source, _ => .finish (.ok (.listMonad none false [.int 1, .int 2]))
  | .test, _ => .look fun world => .finish (.ok (.bool (world.slot "x" matches .int 2)))
  | .block, _ => .look fun world => .finish (.ok (world.slot "x"))

def sifted : Client Sifting Unit :=
  .chain (fun _ =>
    .register none (.draw (.slot "x" none) (.function .source)) fun _ =>
      .register none (.restrict (.function .test)) fun _ =>
        .register none (.conclude (.function .block)) fun _ => .finish (.ok .null)) .finish

example :
    let ended := (sifted.run (Client.answer Sifting.text 2) []).outcome
      (World.withRecord { client := () } {})
    ended.1 = .ok (.listMonad none false [.int 2]) ∧
      ended.2.record.history.map (fun entry => (entry.1, entry.2.verb)) =
        [(0, .draw), (0, .restrict), (0, .conclude)] :=
  ⟨rfl, rfl⟩

end Bindery
