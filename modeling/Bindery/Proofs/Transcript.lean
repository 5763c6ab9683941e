import Bindery.Proofs.Deferral
import Bindery.Proofs.Rows
import Bindery.Proofs.Turns

set_option autoImplicit false

namespace Bindery

open Bindery.Action

variable {F σ : Type}

/-- An item while the qualifiers of its step are run: what is bound for it, and its value, extended
by each definition to a bundle of two. -/
structure Row (F : Type) where
  env : Env F
  value : Value F

def Row.of (env : Env F) (target : Target) (value : Value F) : Row F where
  env := env ++ target.bindings value
  value := value

/-- The turns and the results for a list are those for its elements, joined in order. -/
inductive InTurn {α β τ : Type} (each : α → List τ → List β → Prop) :
    List α → List τ → List β → Prop
  | nil : InTurn each [] [] []
  | cons {item : α} {items : List α} {turns later : List τ} {results more : List β}
      (first : each item turns results) (others : InTurn each items later more) :
      InTurn each (item :: items) (turns ++ later) (results ++ more)

/-- A turn is a call of this function, with this argument and this answer, and slots hold these
bindings when it starts. -/
structure Turn.Serves (turn : Turn F σ) (callback : Callback F) (argument : Option (Value F))
    (env : Env F) (value : Value F) : Prop where
  callback : callback = .function turn.body
  argument : turn.argument = argument
  binds : turn.before.Binds env
  answer : turn.answer = .ok value

/-- One turn of a function, for a row. -/
def Served (callback : Callback F) (argument : Option (Value F)) (env : Env F) (value : Value F)
    (turns : List (Turn F σ)) : Prop :=
  ∃ turn, turns = [turn] ∧ turn.Serves callback argument env value

/-- The turns of a qualifier for a row, and what it leaves of the row. A filter is given the value
of the row and keeps the row or drops it. A definition is given nothing and binds its answer. -/
def Qualifier.Turns : Qualifier F → Row F → List (Turn F σ) → List (Row F) → Prop
  | .filter predicate, row, turns, rows => ∃ verdict,
      Served predicate (some row.value) row.env verdict turns ∧
        rows = if verdict.isTrue then [row] else []
  | .define target thunk, row, turns, rows => ∃ defined,
      Served thunk none row.env defined turns ∧
        rows = [⟨row.env ++ target.bindings defined, .bundle [row.value, defined]⟩]

/-- The turns of qualifiers: each qualifier is done with all rows before the next one starts. -/
def Phases : List (Qualifier F) → List (Row F) → List (Turn F σ) → List (Row F) → Prop
  | [], rows, turns, left => turns = [] ∧ left = rows
  | qualifier :: qualifiers, rows, turns, left => ∃ phase later between,
      turns = phase ++ later ∧ InTurn qualifier.Turns rows phase between ∧
        Phases qualifiers between later left

/-- The turn of a block of results for a row. -/
def ConcludingTurns (block : Callback F) (row : Row F) (turns : List (Turn F σ))
    (results : List (Value F)) : Prop :=
  ∃ result, Served block (some row.value) row.env result turns ∧ results = [result]

/-- The turns after the qualifiers of a step: for each row that is left, one call of the block or
else all turns of the steps that follow, if any do. -/
def FinishingTurns (step : Step F) (last : Bool)
    (proceeds : Env F → List (Turn F σ) → List (Value F) → Prop) (rows : List (Row F))
    (turns : List (Turn F σ)) (results : List (Value F)) : Prop :=
  if step.hasBlock then InTurn (ConcludingTurns step.block) rows turns results
  else if last then turns = [] ∧ results = rows.map Row.value
  else InTurn (fun row => proceeds row.env) rows turns results

/-- The turns of steps and the results that they lead to: one call of the first source, the phases
of its qualifiers, and then, for each row that is left, one call of the block or else all turns of
the steps that follow. -/
def Transcript : List (Step F) → Env F → List (Turn F σ) → List (Value F) → Prop
  | [], _, _, _ => False
  | step :: rest, env, turns, results => ∃ draw phases finish number items rows,
      turns = draw ++ phases ++ finish ∧
      Served step.source none env (.listMonad number false items) draw ∧
      Phases step.qualifiers (items.map (Row.of env step.ownTarget)) phases rows ∧
      FinishingTurns step rest.isEmpty (Transcript rest) rows finish results

def Value.IsListMonad (value : Value F) : Prop :=
  ∃ number items, value = .listMonad number false items

/-- What is asked of a turn: it is regular, where sources give list monads, and it leaves the slots
with these keys alone. -/
structure Turn.Behaves (keys : List String) (refs : List StepRef) (steps : List (Step F))
    (turn : Turn F σ) : Prop extends turn.Regular Value.IsListMonad refs steps where
  slots : ∀ key ∈ keys, turn.after.slot key = turn.before.slot key

namespace Step

structure IsPlain (step : Step F) : Prop where
  target : step.ownTarget.IsPlain
  qualifiers : ∀ qualifier ∈ step.qualifiers, qualifier.IsPlain

def slotKeys (step : Step F) : List String :=
  step.ownTarget.slotKeys ++ step.qualifiers.flatMap Qualifier.slotKeys

end Step

namespace InTurn

theorem map {α β γ δ τ : Type} {each : α → List τ → List β → Prop}
    {other : γ → List τ → List δ → Prop} {f : α → γ} {g : β → δ}
    (implies : ∀ item turns results, each item turns results →
      other (f item) turns (results.map g))
    {items : List α} {turns : List τ} {results : List β}
    (inTurn : InTurn each items turns results) :
    InTurn other (items.map f) turns (results.map g) := by
  induction inTurn with
  | nil => exact .nil
  | cons first _ ih =>
      rw [List.map_append]
      exact .cons (implies _ _ _ first) ih

end InTurn

def doInTurn (act : Value F → Action F σ (List (Value F))) :
    List (Value F) → Action F σ (List (Value F))
  | [] => return []
  | item :: items => do
      let first ← act item
      let others ← doInTurn act items
      return first ++ others

theorem collect_eq_doInTurn (run : ItemAction F σ) (items : List (Value F)) :
    collect run items = doInTurn (fun item => run item >>= fun value => pure [value]) items := by
  induction items with
  | nil => rfl
  | cons item rest ih => simp [collect, doInTurn, ih]

theorem gather_eq_doInTurn (itemsOf : Value F → Action F σ (List (Value F)))
    (run : ItemAction F σ) (items : List (Value F)) :
    gather itemsOf run items = doInTurn (fun item => run item >>= itemsOf) items := by
  induction items with
  | nil => rfl
  | cons item rest ih => simp [gather, doInTurn, ih]

def qualifyItem (meaning : Meaning F σ) (target : Target) :
    Qualifier F → Value F → Action F σ (List (Value F))
  | .filter predicate, item => do
      let verdict ← testItem meaning target predicate item
      return if verdict.isTrue then [item] else []
  | .define added thunk, item => do
      let pair ← pairItem meaning target added thunk item
      return [pair]

theorem retain_eq_doInTurn (meaning : Meaning F σ) (target : Target) (predicate : Callback F)
    (items : List (Value F)) :
    retain (testItem meaning target predicate) items =
      doInTurn (qualifyItem meaning target (.filter predicate)) items := by
  induction items with
  | nil => rfl
  | cons item rest ih =>
      simp only [retain, doInTurn, qualifyItem, ih, bind_assoc, pure_bind]
      congr 1
      funext verdict
      cases verdict.isTrue <;> simp

/-- Where there are slots only, a qualifier is done with the items in turn. -/
theorem qualifyItems_cons (meaning : Meaning F σ) {target : Target} (slots : target.SlotsOnly)
    (qualifier : Qualifier F) (rest : List (Qualifier F)) (items : List (Value F)) :
    qualifyItems meaning target (qualifier :: rest) items =
      doInTurn (qualifyItem meaning target qualifier) items >>=
        qualifyItems meaning (qualifier.retarget target) rest := by
  cases qualifier with
  | filter predicate =>
      have absent := Target.hasSequence_of_slotsOnly target slots
      rw [← retain_eq_doInTurn]
      simp [qualifyItems, filterItems, absent, Qualifier.retarget]
  | define added thunk =>
      rw [qualifyItems, collect_eq_doInTurn]
      rfl

theorem ordinary_qualifyItem {call : F → Option (Value F) → Action F σ (Value F)} (target : Target)
    (qualifier : Qualifier F) (item : Value F) :
    Ordinary call (qualifyItem (.standard call) target qualifier item) := by
  cases qualifier with
  | filter predicate =>
      exact (ordinary_testItem target predicate item).bind fun _ => ordinary_pure _
  | define added thunk =>
      exact (ordinary_pairItem target added thunk item).bind fun _ => ordinary_pure _

theorem doInTurn_lengthens {act : Value F → Action F (σ × List (Turn F σ)) (List (Value F))}
    (each : ∀ item, Lengthens (act item)) (items : List (Value F)) :
    Lengthens (doInTurn act items) := by
  intro earlier
  induction items with
  | nil => exact preserves_pure _
  | cons item rest ih =>
      exact (each item earlier).bind fun _ => ih.bind fun _ => preserves_pure _

/-- What each item adds and gives is added and given in turn, whatever it is that is recorded from
state to state. -/
theorem runs_doInTurn_of {τ : Type} {behaves : Turn F σ → Prop}
    {recorded : List τ → World F (σ × List (Turn F σ)) → World F (σ × List (Turn F σ)) → Prop}
    {invariant : World F (σ × List (Turn F σ)) → Prop}
    {failure : Error → World F (σ × List (Turn F σ)) → Prop}
    {act : Value F → Action F (σ × List (Turn F σ)) (List (Value F))}
    {relation : Value F → List τ → List (Value F) → Prop} {such : Value F → Prop}
    {items : List (Value F)} (nothing : ∀ world, recorded [] world world)
    (append : ∀ first second before middle after, recorded first before middle →
      recorded second middle after → recorded (first ++ second) before after)
    (lengthens : ∀ item, Lengthens (act item))
    (each : ∀ item ∈ items, ∀ now, invariant now →
      (act item).Runs behaves now
        (fun values after => (∃ added, recorded added now after ∧ relation item added values) ∧
          (∀ value ∈ values, such value) ∧ invariant after) failure)
    {now : World F (σ × List (Turn F σ))} (holds : invariant now) :
    (doInTurn act items).Runs behaves now
      (fun values after =>
        (∃ added, recorded added now after ∧ InTurn relation items added values) ∧
        (∀ value ∈ values, such value) ∧ invariant after) failure := by
  induction items generalizing now with
  | nil => exact runs_pure [] ⟨⟨[], nothing now, .nil⟩, nofun, holds⟩
  | cons item rest ih =>
      have later : ∀ first, Lengthens (doInTurn act rest >>= fun others =>
          pure (first ++ others)) :=
        fun first earlier => (doInTurn_lengthens lengthens rest earlier).bind fun _ =>
          preserves_pure _
      refine (each item List.mem_cons_self now holds).bind later ?_
      rintro first middle ⟨⟨added, reached, related⟩, firstSuch, kept⟩
      have others := ih (fun other member => each other (List.mem_cons_of_mem _ member)) kept
      refine others.bind_pure ?_
      rintro values after ⟨⟨more, ended, inTurn⟩, valuesSuch, last⟩
      exact ⟨⟨added ++ more, append _ _ _ _ _ reached ended, .cons related inTurn⟩,
        List.forall_mem_append.mpr ⟨firstSuch, valuesSuch⟩, last⟩

theorem runs_doInTurn {behaves : Turn F σ → Prop}
    {invariant : World F (σ × List (Turn F σ)) → Prop}
    {failure : Error → World F (σ × List (Turn F σ)) → Prop}
    {act : Value F → Action F (σ × List (Turn F σ)) (List (Value F))}
    {relation : Value F → List (Turn F σ) → List (Value F) → Prop} {such : Value F → Prop}
    {items : List (Value F)} (lengthens : ∀ item, Lengthens (act item))
    (each : ∀ item ∈ items, ∀ now, invariant now →
      (act item).Runs behaves now
        (fun values after => Added (fun turns => relation item turns values) now after ∧
          (∀ value ∈ values, such value) ∧ invariant after) failure)
    {now : World F (σ × List (Turn F σ))} (holds : invariant now) :
    (doInTurn act items).Runs behaves now
      (fun values after => Added (fun turns => InTurn relation items turns values) now after ∧
        (∀ value ∈ values, such value) ∧ invariant after) failure := by
  refine runs_doInTurn_of (fun _ => (List.append_nil _).symm) ?_ lengthens each holds
  intro first second before middle after earlier later
  rw [later, earlier, List.append_assoc]

/-- While steps are chained: the steps are those of the start, and slots hold an environment. -/
structure Seated (refs : List StepRef) (start : World F (σ × List (Turn F σ))) (env : Env F)
    (now : World F (σ × List (Turn F σ))) : Prop where
  same : SameSteps refs start now
  binds : now.Binds env

/-- Chaining steps gives a list monad of the results of a transcript, after its turns. -/
def Transcribed (refs : List StepRef) (start : World F (σ × List (Turn F σ)))
    (left : List (Step F)) (env : Env F) (now : World F (σ × List (Turn F σ))) (value : Value F)
    (after : World F (σ × List (Turn F σ))) : Prop :=
  ∃ number results, value = .listMonad number false results ∧
    Added (fun turns => Transcript left env turns results) now after ∧
    Seated refs start env after

section Items

variable {call : F → Option (Value F) → Action F σ (Value F)} {keys later : List String}
  {refs : List StepRef} {steps : List (Step F)} {start now : World F (σ × List (Turn F σ))}
  {env : Env F} {target : Target} {failure : Error → World F (σ × List (Turn F σ)) → Prop}

theorem Seated.of_append {more : Env F} (seated : Seated refs start (env ++ more) now) :
    Seated refs start env now :=
  ⟨seated.same, fun binding member => seated.binds binding (List.mem_append_left _ member)⟩

theorem Seated.called (seated : Seated refs start env now) (later : List String)
    (placed : env.map (·.1) ++ later = keys) {callback : Callback F}
    (callable : ∃ body, callback = .function body) (argument : Option (Value F)) :
    (callback.call (.standard (observing call)) argument).Runs (Turn.Behaves keys refs steps) now
      (fun value after => Added (fun turns => ∃ turn, turns = [turn] ∧
          turn.Serves callback argument env value ∧ turn.Behaves keys refs steps) now after ∧
        Seated refs start env after)
      failure := by
  obtain ⟨body, rfl⟩ := callable
  refine (runs_call (fun _ behaves => behaves.answered) body argument now).imp ?_
  rintro value after ⟨turn, leads, behaves⟩
  have serves : turn.Serves (.function body) argument env value := by
    refine ⟨by rw [leads.body], leads.argument, ?_, leads.answer⟩
    rw [leads.before]
    exact seated.binds
  refine ⟨⟨[turn], leads.log, turn, rfl, serves, behaves⟩,
    leads.sameSteps behaves.unamended seated.same, ?_⟩
  intro binding member
  have inside : binding.1 ∈ keys := by
    rw [← placed]
    exact List.mem_append_left _ (List.mem_map_of_mem member)
  have kept := behaves.slots binding.1 inside
  rw [leads.after, leads.before] at kept
  exact kept.trans (seated.binds binding member)

theorem Seated.deposit (seated : Seated refs start env now) {value : Value F}
    (slots : target.SlotsOnly) (fits : target.Fits value)
    (different : (env.map (·.1) ++ target.slotKeys).Nodup) :
    (Bindery.deposit target value).Ends now
      (fun _ after => after.log = now.log ∧
        Seated refs start (env ++ target.bindings value) after)
      failure := by
  unfold Ends
  rw [outcome_deposit_of_slotsOnly target value now slots fits]
  refine ⟨?_, ?_, seated.binds.setSlots fits different⟩
  · rw [World.log, World.client_setSlots]
    rfl
  · intro ref member
    rw [← seated.same ref member, World.step?, World.steps, World.contexts_setSlots]
    rfl

theorem Seated.settleAndDeposit (seated : Seated refs start env now) {value : Value F}
    (slots : target.SlotsOnly) (fits : target.Fits value)
    (different : (env.map (·.1) ++ target.slotKeys).Nodup) :
    (Bindery.settleAndDeposit target value).Ends now
      (fun settled after => settled = value ∧ after.log = now.log ∧
        Seated refs start (env ++ target.bindings value) after)
      failure := by
  rw [Bindery.settleAndDeposit,
    settle_of_not_hasSequence target value (Target.hasSequence_of_slotsOnly target slots),
    pure_bind, ends_bind]
  exact (seated.deposit slots fits different).imp fun _ _ deposited => ⟨rfl, deposited⟩

theorem runs_qualifyItem {qualifier : Qualifier F} {item : Value F}
    (callable : ∃ body, qualifier.callback = .function body) (plain : qualifier.IsPlain)
    (slots : target.SlotsOnly) (fits : target.Fits item) (different : keys.Nodup)
    (placed : env.map (·.1) ++ (target.slotKeys ++ later) = keys)
    (seated : Seated refs start env now) :
    (qualifyItem (.standard (observing call)) target qualifier item).Runs
      (Turn.Behaves keys refs steps) now
      (fun left after =>
        Added (fun turns => qualifier.Turns (.of env target item) turns
          (left.map (Row.of env (qualifier.retarget target)))) now after ∧
        (∀ value ∈ left, (qualifier.retarget target).Fits value) ∧ Seated refs start env after)
      failure := by
  obtain ⟨inside, covered⟩ := nodup_and_keys_of_placed different placed fits
  cases qualifier with
  | filter predicate =>
      rw [qualifyItem, testItem, bind_assoc]
      refine runs_bind_of_ends (seated.deposit slots fits inside) ?_
      rintro _ middle ⟨unchanged, deposited⟩
      refine (deposited.called later covered callable (some item)).bind_pure ?_
      rintro verdict after ⟨added, called⟩
      refine ⟨(added.of_log_eq unchanged).imp ?_, ?_, called.of_append⟩
      · rintro turns ⟨turn, rfl, serves, -⟩
        refine ⟨verdict, ⟨turn, rfl, serves⟩, ?_⟩
        cases verdict.isTrue <;> rfl
      · intro value member
        have kept : value = item := by
          cases passes : verdict.isTrue <;> simp_all
        exact kept ▸ fits
  | define added thunk =>
      have absent := Target.hasSequence_of_slotsOnly added (Target.IsPlain.slotsOnly plain)
      rw [qualifyItem, pairItem, bind_assoc]
      refine runs_bind_of_ends (seated.settleAndDeposit slots fits inside) ?_
      rintro settled middle ⟨rfl, unchanged, deposited⟩
      simp only [settle_of_not_hasSequence added _ absent, bind_assoc, pure_bind]
      refine (deposited.called later covered callable none).bind_pure ?_
      rintro defined after ⟨logged, called⟩
      refine ⟨(logged.of_log_eq unchanged).imp ?_, ?_, called.of_append⟩
      · rintro turns ⟨turn, rfl, serves, -⟩
        refine ⟨defined, ⟨turn, rfl, serves⟩, ?_⟩
        simp [Row.of, Qualifier.retarget]
      · intro value member
        rw [List.mem_singleton.mp member]
        exact (Target.takes_pair _ _ _ _ _).mpr ⟨fits, Target.IsPlain.fits plain defined⟩

theorem runs_concludeItem {block : Callback F} {item : Value F}
    (callable : ∃ body, block = .function body) (slots : target.SlotsOnly)
    (fits : target.Fits item) (different : keys.Nodup)
    (placed : env.map (·.1) ++ (target.slotKeys ++ later) = keys)
    (seated : Seated refs start env now) :
    (concludeItem (.standard (observing call)) target block item >>= fun result =>
      pure [result]).Runs (Turn.Behaves keys refs steps) now
      (fun results after =>
        Added (fun turns => ConcludingTurns block (.of env target item) turns results) now after ∧
        Seated refs start env after)
      failure := by
  obtain ⟨inside, covered⟩ := nodup_and_keys_of_placed different placed fits
  rw [concludeItem, bind_assoc]
  refine runs_bind_of_ends (seated.settleAndDeposit slots fits inside) ?_
  rintro settled middle ⟨rfl, unchanged, deposited⟩
  refine (deposited.called later covered callable (some settled)).bind_pure ?_
  rintro result after ⟨logged, called⟩
  refine ⟨(logged.of_log_eq unchanged).imp ?_, called.of_append⟩
  rintro turns ⟨turn, rfl, serves, -⟩
  exact ⟨result, ⟨turn, rfl, serves⟩, rfl⟩

theorem runs_proceedItem {rest : List StepRef} {left : List (Step F)} {index : Nat}
    {item : Value F} (slots : target.SlotsOnly) (fits : target.Fits item) (different : keys.Nodup)
    (placed : env.map (·.1) ++ (target.slotKeys ++ later) = keys)
    (chained : ∀ inner reached, inner.map (·.1) ++ later = keys → Seated refs start inner reached →
      (chainFrom (.standard (observing call)) rest index).Runs
        (Turn.Behaves keys refs steps) reached (Transcribed refs start left inner reached) failure)
    (seated : Seated refs start env now) :
    ((Continuation.proceed target rest index).apply (.standard (observing call)) item >>=
      listItems).Runs (Turn.Behaves keys refs steps) now
      (fun results after =>
        Added (fun turns => Transcript left (Row.of env target item).env turns results) now after ∧
        Seated refs start env after)
      failure := by
  obtain ⟨inside, covered⟩ := nodup_and_keys_of_placed different placed fits
  rw [Continuation.apply, bind_assoc]
  refine runs_bind_of_ends (seated.settleAndDeposit slots fits inside) ?_
  rintro settled middle ⟨rfl, unchanged, deposited⟩
  refine (chained _ middle covered deposited).bind (fun value _ => listItems_preserves value) ?_
  rintro value after ⟨number, results, rfl, logged, reached⟩
  exact runs_pure results ⟨logged.of_log_eq unchanged, reached.of_append⟩

end Items

theorem ordinary_qualifyItems {call : F → Option (Value F) → Action F σ (Value F)} (target : Target)
    (qualifiers : List (Qualifier F)) (items : List (Value F)) :
    Ordinary call (qualifyItems (.standard call) target qualifiers items) :=
  fun invariant ignores keeps =>
    qualifyItems_preserves ignores target qualifiers items fun callback _ argument =>
      ordinary_call callback argument invariant ignores keeps

section Steps

variable {call : F → Option (Value F) → Action F σ (Value F)} {keys later : List String}
  {refs : List StepRef} {steps : List (Step F)} {start now : World F (σ × List (Turn F σ))}
  {env : Env F} {failure : Error → World F (σ × List (Turn F σ)) → Prop}

theorem runs_qualifyItems {qualifiers : List (Qualifier F)} {target : Target}
    {items : List (Value F)}
    (callable : ∀ qualifier ∈ qualifiers, ∃ body, qualifier.callback = .function body)
    (plain : ∀ qualifier ∈ qualifiers, qualifier.IsPlain) (slots : target.SlotsOnly)
    (fits : ∀ item ∈ items, target.Fits item) (different : keys.Nodup)
    (placed : env.map (·.1) ++
      (target.slotKeys ++ (qualifiers.flatMap Qualifier.slotKeys ++ later)) = keys)
    (seated : Seated refs start env now) :
    (qualifyItems (.standard (observing call)) target qualifiers items).Runs
      (Turn.Behaves keys refs steps) now
      (fun kept after =>
        Added (fun turns => Phases qualifiers (items.map (Row.of env target)) turns
          (kept.map (Row.of env (qualifiers.foldl Qualifier.retarget target)))) now after ∧
        (∀ value ∈ kept, (qualifiers.foldl Qualifier.retarget target).Fits value) ∧
        Seated refs start env after)
      failure := by
  induction qualifiers generalizing target items now with
  | nil => exact runs_pure items ⟨.none rfl ⟨rfl, rfl⟩, fits, seated⟩
  | cons qualifier rest ih =>
      rw [List.forall_mem_cons] at callable plain
      obtain ⟨retargeted, bound⟩ := slotsOnly_and_slotKeys_retarget [qualifier] target
        (List.forall_mem_singleton.mpr plain.1) slots
      simp only [List.foldl_cons, List.foldl_nil, List.flatMap_singleton] at retargeted bound
      have onward : env.map (·.1) ++ ((qualifier.retarget target).slotKeys ++
          (rest.flatMap Qualifier.slotKeys ++ later)) = keys := by
        rw [bound, ← placed]
        simp
      have phase : (doInTurn (qualifyItem (.standard (observing call)) target qualifier)
          items).Runs (Turn.Behaves keys refs steps) now _ failure :=
        runs_doInTurn (fun item => (ordinary_qualifyItem target qualifier item).lengthens)
          (fun item member reached sits => runs_qualifyItem callable.1 plain.1 slots
            (fits item member) different placed sits) seated
      rw [qualifyItems_cons _ slots]
      refine phase.bind (fun _ => (ordinary_qualifyItems _ rest _).lengthens) ?_
      rintro kept middle ⟨added, keptFits, sits⟩
      refine (ih callable.2 plain.2 retargeted keptFits onward sits).imp ?_
      rintro last after ⟨more, lastFits, reached⟩
      refine ⟨added.append more ?_, lastFits, reached⟩
      intro turns others inTurn phases
      exact ⟨turns, others, _, rfl, inTurn.map fun _ _ _ serves => serves, phases⟩

theorem runs_generate {step : Step F} (among : step ∈ steps) (callable : step.Callable)
    (plain : step.IsPlain) (different : keys.Nodup)
    (placed : env.map (·.1) ++ (step.slotKeys ++ later) = keys) (index : Nat)
    (seated : Seated refs start env now) :
    (step.generate (.standard (observing call)) index).Runs (Turn.Behaves keys refs steps) now
      (fun value after => ∃ number kept, value = .listMonad number false kept ∧
        Added (fun turns => ∃ draw phases number items, turns = draw ++ phases ∧
          Served step.source none env (.listMonad number false items) draw ∧
          Phases step.qualifiers (items.map (Row.of env step.ownTarget)) phases
            (kept.map (Row.of env step.target))) now after ∧
        (∀ item ∈ kept, step.target.Fits item) ∧ Seated refs start env after)
      failure := by
  rw [Step.slotKeys, List.append_assoc] at placed
  rw [Step.generate]
  refine (seated.called _ placed callable.source none).bind
    (fun value => (ordinary_applyQualifiers index _ _ value).lengthens) ?_
  rintro value middle ⟨⟨draw, logged, turn, rfl, serves, behaves⟩, called⟩
  obtain ⟨_, answer, number, items, rfl⟩ :=
    behaves.sources step among serves.callback serves.argument
  have given := serves.answer
  rw [answer, Except.ok.injEq] at given
  subst given
  rw [applyQualifiers_listMonad]
  refine (runs_qualifyItems callable.qualifiers plain.qualifiers plain.target.slotsOnly
    (fun item _ => plain.target.fits item) different placed called).bind_pure ?_
  rintro kept after ⟨added, fits, reached⟩
  refine ⟨_, kept, rfl, ?_, fits, reached⟩
  refine Added.append ⟨[turn], logged, rfl⟩ added ?_
  rintro _ phases rfl phased
  exact ⟨[turn], phases, number, items, rfl, ⟨turn, rfl, serves⟩, phased⟩

theorem runs_rowsInTurn {target : Target} {items : List (Value F)}
    {act : Value F → Action F (σ × List (Turn F σ)) (List (Value F))}
    {each : Row F → List (Turn F σ) → List (Value F) → Prop}
    (lengthens : ∀ item, Lengthens (act item))
    (turned : ∀ item ∈ items, ∀ reached, Seated refs start env reached →
      (act item).Runs (Turn.Behaves keys refs steps) reached
        (fun results after =>
          Added (fun turns => each (.of env target item) turns results) reached after ∧
          Seated refs start env after)
        failure)
    (seated : Seated refs start env now) :
    (doInTurn act items).Runs (Turn.Behaves keys refs steps) now
      (fun results after =>
        Added (fun turns => InTurn each (items.map (Row.of env target)) turns results) now after ∧
        Seated refs start env after)
      failure := by
  have loop : (doInTurn act items).Runs (Turn.Behaves keys refs steps) now
      (fun results after =>
        Added (fun turns => InTurn (fun item => each (.of env target item)) items turns results)
          now after ∧
        (∀ value ∈ results, True) ∧ Seated refs start env after)
      failure := by
    refine runs_doInTurn lengthens ?_ seated
    intro item member reached sits
    refine (turned item member reached sits).imp ?_
    intro results after ended
    exact ⟨ended.1, fun _ _ => trivial, ended.2⟩
  refine loop.imp ?_
  rintro results after ⟨added, -, reached⟩
  refine ⟨added.imp ?_, reached⟩
  intro turns inTurn
  simpa using inTurn.map (g := id) fun _ _ _ single => by simpa using single

theorem runs_finishItems {step : Step F} {rest : List StepRef} {left : List (Step F)} {index : Nat}
    {items : List (Value F)} (same : left.isEmpty = rest.isEmpty) (callable : step.Callable)
    (slots : step.target.SlotsOnly) (fits : ∀ item ∈ items, step.target.Fits item)
    (different : keys.Nodup) (placed : env.map (·.1) ++ (step.target.slotKeys ++ later) = keys)
    (chained : rest ≠ [] → ∀ inner reached, inner.map (·.1) ++ later = keys →
      Seated refs start inner reached →
        (chainFrom (.standard (observing call)) rest (index + 1)).Runs
          (Turn.Behaves keys refs steps) reached (Transcribed refs start left inner reached)
          failure)
    (seated : Seated refs start env now) :
    (finishItems (.standard (observing call)) listItems step step rest index items).Runs
      (Turn.Behaves keys refs steps) now
      (fun results after =>
        Added (fun turns => FinishingTurns step left.isEmpty (Transcript left)
          (items.map (Row.of env step.target)) turns results) now after ∧
        Seated refs start env after)
      failure := by
  unfold FinishingTurns
  cases carried : step.hasBlock with
  | true =>
      simp only [finishItems, carried, ↓reduceIte]
      rw [collect_eq_doInTurn]
      exact runs_rowsInTurn
        (fun item => ((ordinary_concludeItem step.target step.block item).bind fun _ =>
          ordinary_pure _).lengthens)
        (fun item member reached sits => runs_concludeItem (callable.block carried) slots
          (fits item member) different placed sits)
        seated
  | false =>
      cases rest with
      | nil =>
          simp only [finishItems, carried, same, List.isEmpty_nil, ↓reduceIte]
          refine runs_pure items ⟨.none rfl ⟨rfl, ?_⟩, seated⟩
          simp [Row.of, Function.comp_def]
      | cons next others =>
          simp only [finishItems, carried, same, List.isEmpty_cons, Bool.false_eq_true, ↓reduceIte]
          rw [gather_eq_doInTurn]
          exact runs_rowsInTurn
            (fun item => ((ordinary_apply _ item).bind ordinary_listItems).lengthens)
            (fun item member reached sits => runs_proceedItem slots (fits item member) different
              placed (chained (List.cons_ne_nil next others)) sits)
            seated

theorem runs_chainFrom {rest : List StepRef} {left : List (Step F)}
    (leads : start.LeadsTo rest left) (nonempty : left ≠ []) (listed : rest ⊆ refs)
    (among : ∀ step ∈ left, step ∈ steps) (callable : ∀ step ∈ left, step.Callable)
    (plain : ∀ step ∈ left, step.IsPlain) (different : keys.Nodup)
    (placed : env.map (·.1) ++ left.flatMap Step.slotKeys = keys) (index : Nat)
    (seated : Seated refs start env now) :
    (chainFrom (.standard (observing call)) rest index).Runs (Turn.Behaves keys refs steps) now
      (Transcribed refs start left env now) failure := by
  -- The environment grows from step to step: the steps that are left are chained once for each row.
  induction leads generalizing env index now with
  | nil => exact absurd rfl nonempty
  | @cons ref step rest left found others ih =>
      rw [List.cons_subset] at listed
      rw [List.forall_mem_cons] at among callable plain
      rw [List.flatMap_cons] at placed
      obtain ⟨slots, bound⟩ := slotsOnly_and_slotKeys_retarget step.qualifiers step.ownTarget
        plain.1.qualifiers plain.1.target.slotsOnly
      have current : ∀ {reached}, Seated refs start env reached →
          (currentStep ref).Ends reached
            (fun current after => step = current ∧ reached = after) failure :=
        fun sits => ends_currentStep ((sits.same ref listed.1).trans found)
      have finishing : ∀ current value, Ordinary (observing call)
          (finishValue (.standard (observing call)) step current rest index value) :=
        fun current value => ordinary_finishValue step current rest index value
      rw [chainFrom_cons]
      refine runs_bind_of_ends (current seated) ?_
      rintro _ _ ⟨rfl, rfl⟩
      refine (runs_generate among.1 callable.1 plain.1 different placed _ seated).bind
        (fun value => ((ordinary_requireMonadLike _ value).bind fun _ =>
          (ordinary_currentStep ref).bind fun current => finishing current value).lengthens) ?_
      rintro _ middle ⟨number, kept, rfl, added, fits, sits⟩
      rw [requireMonadLike_listMonad, pure_bind]
      refine runs_bind_of_ends (current sits) ?_
      rintro _ _ ⟨rfl, rfl⟩
      rw [finishValue_listMonad]
      have same : left.isEmpty = rest.isEmpty := by cases others <;> rfl
      have chained : rest ≠ [] → ∀ inner reached,
          inner.map (·.1) ++ left.flatMap Step.slotKeys = keys → Seated refs start inner reached →
            (chainFrom (.standard (observing call)) rest (index + 1)).Runs
              (Turn.Behaves keys refs steps) reached (Transcribed refs start left inner reached)
              failure := by
        intro more inner reached placed sits
        refine ih ?_ listed.2 among.2 callable.2 plain.2 placed (index + 1) sits
        rintro rfl
        cases others
        exact more rfl
      refine (runs_finishItems same callable.1 slots fits different ?_ chained sits).bind_pure ?_
      · rw [← placed]
        exact congrArg (fun keys => env.map (·.1) ++ (keys ++ left.flatMap Step.slotKeys)) bound
      rintro results after ⟨finished, reached⟩
      refine ⟨_, results, rfl, added.append finished ?_, reached⟩
      rintro _ finish ⟨draw, phases, number, items, rfl, drawn, phased⟩ ends
      exact ⟨draw, phases, finish, number, items, _, rfl, drawn, phased, ends⟩

end Steps

/-- The calls that chaining list monads makes are those of a transcript, each once and in its order.
The functions may do anything else, as long as they are answered, and leave the slots that are bound
and the steps as they are. -/
theorem transcript_of_chainSteps {call : F → Option (Value F) → Action F σ (Value F)}
    {refs : List StepRef} {steps : List (Step F)} {start : World F σ} {env : Env F}
    (leads : start.LeadsTo refs steps) (nonempty : steps ≠ [])
    (blocks : misplacedBlock? steps = none)
    (callable : ∀ step ∈ steps, step.Callable) (plain : ∀ step ∈ steps, step.IsPlain)
    (binds : start.Binds env) (different : (env.map (·.1) ++ steps.flatMap Step.slotKeys).Nodup)
    (behaves : ∀ turn ∈
      ((chainSteps (.standard (observing call)) refs).outcome (start.withLog [])).2.log,
      turn.Behaves (env.map (·.1) ++ steps.flatMap Step.slotKeys) refs steps) :
    ∃ number results after,
      (chainSteps (.standard (observing call)) refs).outcome (start.withLog []) =
        (.ok (.listMonad number false results), after) ∧
      Transcript steps env after.log results := by
  have begun : (start.withLog ([] : List (Turn F σ))).LeadsTo refs steps := leads
  have seated : Seated refs (start.withLog []) env (start.withLog []) := ⟨fun _ _ => rfl, binds⟩
  rw [outcome_chainSteps begun nonempty blocks] at behaves ⊢
  have runs : (chainFrom (.standard (observing call)) refs 0).Runs _ (start.withLog []) _
      fun _ _ => False :=
    runs_chainFrom begun nonempty (List.Subset.refl refs) (fun _ member => member) callable plain
      different rfl 0 seated
  obtain ⟨value, after, reached, number, results, rfl, ⟨turns, logged, transcript⟩, -⟩ :=
    runs.exists_ok behaves
  have whole : after.log = turns := logged
  exact ⟨number, results, after, reached, whole ▸ transcript⟩

def countedSteps : List (Step Bool) :=
  [{ ownTarget := .slot "x" none
     source := .function true
     qualifiers := [.filter (.function false), .define (.slot "y" none) (.function false)] },
    { ownTarget := .slot "z" none, source := .function true, block := .function false }]

def countedStart : World Bool Nat :=
  { contexts := [countedSteps], client := 0 }

def twoNumbers (calls : Nat) : Value Bool :=
  .listMonad none false [.int calls, .int (calls + 1)]

/-- The source is called, then the filter twice, and then the definition once. For the one row that
is left, the second source is called, and the block for both its items. -/
theorem transcript_of_chainSteps_countedSteps :
    ∃ after,
      (chainSteps (.standard (observing (countingCall twoNumbers))) [⟨0, 0⟩, ⟨0, 1⟩]).outcome
          (countedStart.withLog []) =
        (.ok (.listMonad none false [.int 1, .int 0]), after) ∧
      Transcript countedSteps [] after.log [.int 1, .int 0] ∧
      after.log.map (fun turn => (turn.body, turn.argument)) =
        [(true, none), (false, some (.int 0)), (false, some (.int 1)), (false, none), (true, none),
          (false, some (.int 4)), (false, some (.int 5))] := by
  have leads : countedStart.LeadsTo [⟨0, 0⟩, ⟨0, 1⟩] countedSteps := .cons rfl (.cons rfl .nil)
  have callable : ∀ step ∈ countedSteps, step.Callable := by
    intro step member
    simp only [countedSteps, List.mem_cons, List.not_mem_nil, or_false] at member
    rcases member with rfl | rfl
    · exact ⟨⟨true, rfl⟩, by simp [Qualifier.callback], by simp [Step.hasBlock, Callback.isNull]⟩
    · exact ⟨⟨true, rfl⟩, by simp, fun _ => ⟨false, rfl⟩⟩
  have plain : ∀ step ∈ countedSteps, step.IsPlain := by
    intro step member
    simp only [countedSteps, List.mem_cons, List.not_mem_nil, or_false] at member
    rcases member with rfl | rfl
    · exact ⟨trivial, by simp [Qualifier.IsPlain, Target.IsPlain]⟩
    · exact ⟨trivial, by simp⟩
  have binds : countedStart.Binds [] := by simp [World.Binds]
  have sources : ∀ step ∈ countedSteps, step.source = .function true := by simp [countedSteps]
  have begun : World.Orderly (Turn.Behaves ["x", "y", "z"] [⟨0, 0⟩, ⟨0, 1⟩] countedSteps)
      (countedStart.withLog []) := by
    simp [World.Orderly, World.log, World.withLog]
  have behaves := ((ordinary_chainSteps [⟨0, 0⟩, ⟨0, 1⟩]).orderly fun body argument before =>
    { regular_countingCall twoNumbers (fun _ => ⟨_, _, rfl⟩) sources _ body argument before with
      slots := fun _ _ => rfl }).outcome begun
  obtain ⟨number, results, after, chained, transcript⟩ :=
    transcript_of_chainSteps leads (List.cons_ne_nil _ _) rfl callable plain binds (by decide)
      behaves
  have value : Except.ok (Value.listMonad none false [.int 1, .int 0]) =
      .ok (.listMonad number false results) := congrArg (·.1) chained
  have turns : [(true, none), (false, some (.int 0)), (false, some (.int 1)), (false, none),
      (true, none), (false, some (.int 4)), (false, some (.int 5))] =
        after.log.map (fun turn => (turn.body, turn.argument)) :=
    congrArg (fun ran => ran.2.log.map fun turn => (turn.body, turn.argument)) chained
  simp only [Except.ok.injEq, Value.listMonad.injEq] at value
  obtain ⟨rfl, -, rfl⟩ := value
  exact ⟨after, chained, transcript, turns.symm⟩

end Bindery
