import Bindery.Proofs.Staging

set_option autoImplicit false

namespace Bindery

open Bindery.Action

variable {F σ : Type}

/-- Whether a call belongs between the first draw and the block of results, with a target that takes
values. -/
def Call.InBody : Call F → Prop
  | .draw target source => target.accepts = true ∧ ∃ body, source = .function body
  | .restrict _ => True
  | .define target _ => target.accepts = true
  | .conclude _ => False

theorem exists_clauses {calls : List (Call F)} (inBody : ∀ request ∈ calls, request.InBody) :
    ∃ (qualifiers : List (Qualifier F)) (clauses : List (Clause F)),
      calls = qualifiers.map Qualifier.call ++ clauses.flatMap Clause.calls ∧
        (∀ target thunk, Qualifier.define target thunk ∈ qualifiers → target.accepts = true) ∧
        ∀ clause ∈ clauses, clause.Accepts := by
  induction calls with
  | nil => exact ⟨[], [], rfl, nofun, nofun⟩
  | cons request rest ih =>
      rw [List.forall_mem_cons] at inBody
      obtain ⟨qualifiers, clauses, rfl, accepts, clausesAccept⟩ := ih inBody.2
      cases request with
      | draw target source =>
          obtain ⟨taken, body, rfl⟩ := inBody.1
          refine ⟨[], ⟨target, body, qualifiers⟩ :: clauses, by simp [Clause.calls], nofun, ?_⟩
          rw [List.forall_mem_cons]
          exact ⟨⟨taken, accepts⟩, clausesAccept⟩
      | restrict predicate =>
          refine ⟨.filter predicate :: qualifiers, clauses, rfl, ?_, clausesAccept⟩
          intro target thunk member
          rcases List.mem_cons.mp member with same | later
          · cases same
          · exact accepts target thunk later
      | define target thunk =>
          refine ⟨.define target thunk :: qualifiers, clauses, rfl, ?_, clausesAccept⟩
          intro other defined member
          rcases List.mem_cons.mp member with same | later
          · cases same
            exact inBody.1
          · exact accepts other defined later
      | conclude block => exact inBody.1.elim

/-- A pipeline: definitions, a first draw, more calls, and a block of results. -/
structure Pipeline (F : Type) where
  definitions : List (Target × Callback F) := []
  target : Target
  source : F
  calls : List (Call F)
  block : F

namespace Pipeline

def requests (pipeline : Pipeline F) : List (Call F) :=
  earlyCalls pipeline.definitions ++
    (.draw pipeline.target (.function pipeline.source) :: pipeline.calls ++
      [.conclude (.function pipeline.block)])

/-- Whether the targets of a pipeline take values, and no cell is bound twice. -/
structure WellFormed (pipeline : Pipeline F) : Prop where
  definitions : ∀ definition ∈ pipeline.definitions, definition.1.accepts = true
  target : pipeline.target.accepts = true
  calls : ∀ request ∈ pipeline.calls, request.InBody
  different : (pipeline.requests.flatMap Call.cells).Nodup

def chain (meaning : Meaning F σ) (pipeline : Pipeline F) : Action F σ (Value F) :=
  Description.chain meaning fun context => Call.performAll meaning context pipeline.requests

/-- The functions of a pipeline do what is said, and touch neither the targets nor the steps. -/
def Conforms (call : F → Option (Value F) → Action F σ (Value F))
    (interpretation : Interpretation F) (context : Nat) (pipeline : Pipeline F) : Prop :=
  ∀ request ∈ pipeline.requests,
    request.Conforms call interpretation (pipeline.requests.flatMap Call.cells) context

theorem outcome_chain {call : F → Option (Value F) → Action F σ (Value F)}
    {interpretation : Interpretation F} {start : World F σ} {pipeline : Pipeline F}
    (wellFormed : pipeline.WellFormed)
    (conforms : pipeline.Conforms call interpretation start.contexts.length)
    {results : List (Value F)}
    (found : interpretation.results pipeline.requests [] = some results) :
    ∃ after, (pipeline.chain (.standard call)).outcome start =
      (.ok (.listMonad none false results), after) := by
  obtain ⟨qualifiers, clauses, split, accepts, clausesAccept⟩ := exists_clauses wellFormed.calls
  have firstAccepts : (Clause.mk pipeline.target pipeline.source qualifiers).Accepts :=
    ⟨wellFormed.target, accepts⟩
  have nonempty : Clause.mk pipeline.target pipeline.source qualifiers :: clauses ≠ [] := nofun
  have allAccept : ∀ clause ∈ Clause.mk pipeline.target pipeline.source qualifiers :: clauses,
      clause.Accepts := List.forall_mem_cons.mpr ⟨firstAccepts, clausesAccept⟩
  generalize listed : Clause.mk pipeline.target pipeline.source qualifiers :: clauses = all
    at nonempty allAccept
  have built : pipeline.requests = earlyCalls pipeline.definitions ++
      blockedCalls all.dropLast (all.getLast nonempty) pipeline.block := by
    have whole := List.dropLast_append_getLast nonempty
    have calls : all.flatMap Clause.calls =
        .draw pipeline.target (.function pipeline.source) :: pipeline.calls := by
      rw [← listed, split]
      rfl
    rw [requests, blockedCalls, ← List.append_assoc (List.flatMap _ _), ← calls]
    conv_lhs => rw [← whole]
    simp
  exact interpretation.chain_eq_results wellFormed.definitions
    (fun clause member => allAccept clause ((List.dropLast_sublist all).subset member))
    (allAccept _ (List.getLast_mem nonempty)) built wellFormed.different conforms found

end Pipeline

namespace Interpretation

/-- A call and one that takes its place: the call itself, for a definition a draw of its one value,
or for a filter a draw without target of one item where the predicate is true and of none where it
is false. -/
inductive Desugars (interpretation : Interpretation F) : Call F → Call F → Prop
  | same (request : Call F) : Desugars interpretation request request
  | definition (target : Target) (thunk : Callback F) (source : F)
      (single : ∀ bound value, interpretation.ask thunk bound = some value →
        interpretation.items source bound = some [value]) :
      Desugars interpretation (.define target thunk) (.draw target (.function source))
  | filter (predicate : Callback F) (source : F)
      (passed : ∀ bound verdict, interpretation.ask predicate bound = some verdict →
        verdict.isTrue = true → ∃ item, interpretation.items source bound = some [item])
      (dropped : ∀ bound verdict, interpretation.ask predicate bound = some verdict →
        verdict.isTrue = false → interpretation.items source bound = some []) :
      Desugars interpretation (.restrict predicate) (.draw .discard (.function source))

variable {interpretation : Interpretation F}

theorem Desugars.cells_eq {request other : Call F}
    (desugars : interpretation.Desugars request other) : other.cells = request.cells := by
  cases desugars <;> rfl

theorem Desugars.inBody {request other : Call F} (desugars : interpretation.Desugars request other)
    (inBody : request.InBody) : other.InBody := by
  cases desugars with
  | same => exact inBody
  | definition target thunk source single => exact ⟨inBody, source, rfl⟩
  | filter predicate source passed dropped => exact ⟨rfl, source, rfl⟩

theorem cells_of_desugars {calls others : List (Call F)}
    (desugars : List.Forall₂ interpretation.Desugars calls others) :
    others.flatMap Call.cells = calls.flatMap Call.cells := by
  induction desugars with
  | nil => rfl
  | cons first _ ih => rw [List.flatMap_cons, List.flatMap_cons, first.cells_eq, ih]

theorem mapM_eq_some_of_imp {α β : Type} {read other : α → Option β}
    (implies : ∀ item value, read item = some value → other item = some value) {items : List α}
    {values : List β} (found : items.mapM read = some values) :
    items.mapM other = some values := by
  induction items generalizing values with
  | nil => exact found
  | cons item rest ih =>
      simp only [List.mapM_cons, Option.bind_eq_bind, Option.bind_eq_some_iff] at found ⊢
      obtain ⟨value, first, others, later, same⟩ := found
      exact ⟨value, implies item value first, others, ih later, same⟩

/-- The first of two pipelines goes on as the second does. -/
def Continues (interpretation : Interpretation F) (calls others : List (Call F)) : Prop :=
  ∀ bound results, interpretation.results calls bound = some results →
    interpretation.results others bound = some results

theorem Desugars.continues {request other : Call F} {calls others : List (Call F)}
    (desugars : interpretation.Desugars request other) (inBody : request.InBody)
    (continues : interpretation.Continues calls others) :
    interpretation.Continues (request :: calls) (other :: others) := by
  intro bound list found
  cases desugars with
  | same =>
      cases request with
      | draw target source =>
          simp only [results, Option.bind_eq_bind, Option.bind_eq_some_iff] at found ⊢
          obtain ⟨items, drawn, lists, read, same⟩ := found
          refine ⟨items, drawn, lists, mapM_eq_some_of_imp ?_ read, same⟩
          intro item given found
          rw [Option.bind_eq_some_iff] at found ⊢
          obtain ⟨captured, captures, later⟩ := found
          exact ⟨captured, captures, continues _ _ later⟩
      | restrict predicate =>
          simp only [results, Option.bind_eq_bind, Option.bind_eq_some_iff] at found ⊢
          obtain ⟨verdict, asked, later⟩ := found
          refine ⟨verdict, asked, ?_⟩
          cases passes : verdict.isTrue with
          | true =>
              rw [passes, if_pos rfl] at later
              exact continues _ _ later
          | false => rwa [passes] at later
      | define target thunk =>
          simp only [results, Option.bind_eq_bind, Option.bind_eq_some_iff] at found ⊢
          obtain ⟨value, asked, captured, captures, later⟩ := found
          exact ⟨value, asked, captured, captures, continues _ _ later⟩
      | conclude block => exact inBody.elim
  | definition target thunk source single =>
      simp only [results, Option.bind_eq_bind, Option.bind_eq_some_iff] at found
      obtain ⟨value, asked, captured, captures, later⟩ := found
      have drawn : interpretation.drawn (.function source) bound = some [value] :=
        single bound value asked
      simp [results, drawn, captures, continues _ _ later]
  | filter predicate source passed dropped =>
      simp only [results, Option.bind_eq_bind, Option.bind_eq_some_iff] at found
      obtain ⟨verdict, asked, later⟩ := found
      cases passes : verdict.isTrue with
      | true =>
          obtain ⟨item, given⟩ := passed bound verdict asked passes
          have drawn : interpretation.drawn (.function source) bound = some [item] := given
          rw [passes, if_pos rfl] at later
          simp [results, drawn, Target.captures?, continues _ _ later]
      | false =>
          have drawn : interpretation.drawn (.function source) bound = some [] :=
            dropped bound verdict asked passes
          rw [passes, if_neg Bool.false_ne_true] at later
          cases later
          simp [results, drawn]

theorem continues_of_desugars {calls others : List (Call F)}
    (desugars : List.Forall₂ interpretation.Desugars calls others)
    (inBody : ∀ request ∈ calls, request.InBody) (rest : List (Call F)) :
    interpretation.Continues (calls ++ rest) (others ++ rest) := by
  induction desugars with
  | nil => exact fun _ _ found => found
  | cons first _ ih =>
      rw [List.forall_mem_cons] at inBody
      exact first.continues inBody.1 (ih inBody.2)

theorem Continues.append {calls others : List (Call F)}
    (continues : interpretation.Continues calls others) (front : List (Call F))
    (inBody : ∀ request ∈ front, request.InBody) :
    interpretation.Continues (front ++ calls) (front ++ others) := by
  induction front with
  | nil => exact continues
  | cons request rest ih =>
      rw [List.forall_mem_cons] at inBody
      exact (Desugars.same request).continues inBody.1 (ih inBody.2)

/-- A source that calls a thunk and gives its one value does what is said if the thunk does. -/
theorem conforms_of_singleton {call : F → Option (Value F) → Action F σ (Value F)}
    {cells : List Cell} {context : Nat} {thunk : Callback F} {source : F} (target : Target)
    (wraps : call source none =
      thunk.call (.standard call) none >>= fun value => pure (.listMonad none false [value]))
    (said : ∀ bound, interpretation.items source bound =
      (interpretation.ask thunk bound).map fun value => [value])
    (answers : thunk.Answers call interpretation cells context) :
    (Call.draw target (.function source)).Conforms call interpretation cells context := by
  intro bound items drawn now holds
  change interpretation.items source bound = some items at drawn
  rw [said] at drawn
  obtain ⟨value, asked, rfl⟩ := Option.map_eq_some_iff.mp drawn
  change Ends (call source none) now _ _
  rw [wraps, ends_bind]
  refine (answers bound value asked none now holds).imp ?_
  rintro _ after ⟨rfl, untouched⟩
  exact ⟨⟨none, rfl⟩, untouched⟩

/-- A source that calls a predicate and gives one item or none does what is said if the predicate
does. -/
theorem conforms_of_guard {call : F → Option (Value F) → Action F σ (Value F)}
    {cells : List Cell} {context : Nat} {predicate : Callback F} {source : F} (target : Target)
    (item : Value F)
    (wraps : call source none = predicate.call (.standard call) none >>= fun verdict =>
      pure (.listMonad none false (if verdict.isTrue then [item] else [])))
    (said : ∀ bound, interpretation.items source bound =
      (interpretation.ask predicate bound).map fun verdict => if verdict.isTrue then [item] else [])
    (answers : predicate.Answers call interpretation cells context) :
    (Call.draw target (.function source)).Conforms call interpretation cells context := by
  intro bound items drawn now holds
  change interpretation.items source bound = some items at drawn
  rw [said] at drawn
  obtain ⟨verdict, asked, rfl⟩ := Option.map_eq_some_iff.mp drawn
  change Ends (call source none) now _ _
  rw [wraps, ends_bind]
  refine (answers bound verdict asked none now holds).imp ?_
  rintro _ after ⟨rfl, untouched⟩
  exact ⟨⟨none, rfl⟩, untouched⟩

end Interpretation

namespace Pipeline

/-- Replacing definitions and filters of a pipeline by draws leaves its results as they are: when
the pipeline is read as some results, it is chained to the list monad of these, and so is each
pipeline in which any of the calls after the first draw are replaced. The functions of both ignore
their argument, and give what is said by the contents of the targets that are bound before them. -/
theorem chain_desugared {call : F → Option (Value F) → Action F σ (Value F)}
    (interpretation : Interpretation F) {start : World F σ} {pipeline : Pipeline F}
    {others : List (Call F)} (wellFormed : pipeline.WellFormed)
    (desugars : List.Forall₂ interpretation.Desugars pipeline.calls others)
    (conforms : pipeline.Conforms call interpretation start.contexts.length)
    (othersConform :
      { pipeline with calls := others }.Conforms call interpretation start.contexts.length)
    {results : List (Value F)}
    (found : interpretation.results pipeline.requests [] = some results) :
    ∃ after last,
      (pipeline.chain (.standard call)).outcome start =
        (.ok (.listMonad none false results), after) ∧
      ({ pipeline with calls := others }.chain (.standard call)).outcome start =
        (.ok (.listMonad none false results), last) := by
  have cells : { pipeline with calls := others }.requests.flatMap Call.cells =
      pipeline.requests.flatMap Call.cells := by
    simp [requests, Interpretation.cells_of_desugars desugars]
  have othersInBody : ∀ other ∈ others, other.InBody := by
    intro other member
    obtain ⟨request, among, replaced⟩ := exists_mem_of_forall₂ desugars.flip other member
    exact replaced.inBody (wellFormed.calls request among)
  have othersWellFormed : { pipeline with calls := others }.WellFormed :=
    ⟨wellFormed.definitions, wellFormed.target, othersInBody, cells ▸ wellFormed.different⟩
  have frontInBody : ∀ request ∈ earlyCalls pipeline.definitions ++
      [.draw pipeline.target (.function pipeline.source)], request.InBody := by
    rw [List.forall_mem_append, List.forall_mem_singleton]
    refine ⟨?_, wellFormed.target, pipeline.source, rfl⟩
    intro request member
    obtain ⟨definition, among, rfl⟩ := List.mem_map.mp member
    exact wellFormed.definitions definition among
  have continues : interpretation.Continues pipeline.requests
      { pipeline with calls := others }.requests := by
    have later := Interpretation.continues_of_desugars desugars wellFormed.calls
      [.conclude (.function pipeline.block)]
    have whole := later.append _ frontInBody
    rwa [List.append_assoc, List.append_assoc] at whole
  obtain ⟨after, reached⟩ := outcome_chain wellFormed conforms found
  obtain ⟨last, ended⟩ := outcome_chain othersWellFormed othersConform (continues _ _ found)
  exact ⟨after, last, reached, ended⟩

end Pipeline

/-- Functions that read what cells hold: a source of two bundles, an answer, a source of that answer
alone, and a source that gives null or nothing according to it. -/
inductive CellReader where
  | pairs
  | held (cell : Cell)
  | single (cell : Cell)
  | guarded (cell : Cell)

namespace CellReader

/-- A number with a tuple of numbers, and zero with an empty one. -/
def bundles : List (Value CellReader) :=
  [.bundle [.int 5, .tuple [.int 1, .int 2]], .bundle [.int 0, .tuple []]]

def call (body : CellReader) (_ : Option (Value CellReader)) :
    Action CellReader Unit (Value CellReader) := do
  let world ← get
  match body with
  | .pairs => return .listMonad none false bundles
  | .held cell => return world.content cell
  | .single cell => return .listMonad none false [world.content cell]
  | .guarded cell =>
      return .listMonad none false (if (world.content cell).isTrue then [.null] else [])

def lookUp (cell : Cell) (bound : Contents CellReader) : Option (Value CellReader) :=
  (bound.find? (·.1 = cell)).map (·.2)

def interpretation : Interpretation CellReader where
  items body bound :=
    match body with
    | .pairs => some bundles
    | .held _ => none
    | .single cell => (lookUp cell bound).map fun value => [value]
    | .guarded cell => (lookUp cell bound).map fun value => if value.isTrue then [.null] else []
  answer body bound :=
    match body with
    | .held cell => lookUp cell bound
    | _ => none

/-- Bundles are taken apart, the sequence is bound once more, items are filtered, and the second
binding is the result. -/
def pipeline : Pipeline CellReader where
  target := .tuple [.slot "x" none, .sequence "s" none]
  source := .pairs
  calls := [.define (.slot "y" none) (.function (.held (.sequence "s"))),
    .restrict (.function (.held (.slot "x")))]
  block := .held (.slot "y")

/-- The same, with draws in the place of the definition and of the filter. -/
def drawn : List (Call CellReader) :=
  [.draw (.slot "y" none) (.function (.single (.sequence "s"))),
    .draw .discard (.function (.guarded (.slot "x")))]

theorem content_of_lookUp {cell : Cell} {bound : Contents CellReader} {value : Value CellReader}
    (found : lookUp cell bound = some value) {now : World CellReader Unit}
    (holds : now.Holds bound) : now.content cell = value := by
  obtain ⟨entry, member, rfl⟩ := Option.map_eq_some_iff.mp found
  have named : entry.1 = cell := by simpa using List.find?_some member
  rw [← named]
  exact holds entry (List.mem_of_find?_eq_some member)

theorem answers_held (cells : List Cell) (context : Nat) (cell : Cell) :
    (Callback.function (held cell)).Answers call interpretation cells context := by
  intro bound result asked argument now holds
  exact ⟨content_of_lookUp asked holds, fun _ _ => rfl, fun _ same => same⟩

theorem conforms_pairs (cells : List Cell) (context : Nat) (target : Target) :
    (Call.draw target (.function pairs)).Conforms call interpretation cells context := by
  intro bound items drawn now holds
  cases drawn
  exact ⟨⟨none, rfl⟩, fun _ _ => rfl, fun _ same => same⟩

theorem chain_desugared_pairs :
    ∃ after last,
      (pipeline.chain (.standard call)).outcome (World.setSlot { client := () } "y" .null) =
        (.ok (.listMonad none false [.list [.int 1, .int 2]]), after) ∧
      ({ pipeline with calls := drawn }.chain (.standard call)).outcome
        (World.setSlot { client := () } "y" .null) =
        (.ok (.listMonad none false [.list [.int 1, .int 2]]), last) := by
  have desugars : List.Forall₂ interpretation.Desugars pipeline.calls drawn := by
    refine .cons (.definition _ _ _ ?_) (.cons (.filter _ _ ?_ ?_) .nil)
    · intro bound value asked
      exact congrArg (Option.map fun value => [value]) asked
    · intro bound verdict asked passes
      refine ⟨.null, ?_⟩
      have found : lookUp (.slot "x") bound = some verdict := asked
      simp [interpretation, found, passes]
    · intro bound verdict asked fails
      have found : lookUp (.slot "x") bound = some verdict := asked
      simp [interpretation, found, fails]
  have wellFormed : pipeline.WellFormed := by
    refine ⟨nofun, rfl, ?_, by decide⟩
    simp [pipeline, Call.InBody, Target.accepts]
  refine Pipeline.chain_desugared interpretation wellFormed desugars ?_ ?_ rfl
  · intro request member
    simp only [Pipeline.requests, pipeline, earlyCalls, List.map_nil, List.nil_append,
      List.cons_append, List.mem_cons, List.not_mem_nil, or_false] at member
    rcases member with rfl | rfl | rfl | rfl
    · exact conforms_pairs _ _ _
    · exact answers_held _ _ _
    · exact answers_held _ _ _
    · exact answers_held _ _ _
  · intro request member
    simp only [Pipeline.requests, pipeline, drawn, earlyCalls, List.map_nil, List.nil_append,
      List.cons_append, List.mem_cons, List.not_mem_nil, or_false] at member
    rcases member with rfl | rfl | rfl | rfl
    · exact conforms_pairs _ _ _
    · exact Interpretation.conforms_of_singleton _ rfl (fun _ => rfl) (answers_held _ _ _)
    · exact Interpretation.conforms_of_guard _ .null rfl (fun _ => rfl) (answers_held _ _ _)
    · exact answers_held _ _ _

end CellReader

/-- Functions of fixed values, two of which also filter the last step of the first context: a thunk,
and the source that gives the value of the thunk. -/
inductive Meddler where
  | two
  | never
  | thunk
  | source
  | seven

namespace Meddler

def value : Meddler → Value Meddler
  | .two => .listMonad none false [.int 1, .int 2]
  | .never => .bool false
  | .thunk => .int 1
  | .source => .listMonad none false [.int 1]
  | .seven => .int 7

def call (body : Meddler) (_ : Option (Value Meddler)) : Action Meddler Unit (Value Meddler) := do
  match body with
  | .thunk | .source => Context.restrict 0 (.function never)
  | .two | .never | .seven => return value body
  return value body

def interpretation : Interpretation Meddler where
  items body _ :=
    match value body with
    | .listMonad _ _ items => some items
    | _ => none
  answer body _ := some (value body)

def pipeline : Pipeline Meddler where
  target := .slot "x" none
  source := .two
  calls := [.define (.slot "y" none) (.function .thunk)]
  block := .seven

/-- A draw in the place of the definition. -/
def drawn : List (Call Meddler) :=
  [.draw (.slot "y" none) (.function .source)]

/-- Where functions amend the steps that are being chained, a draw does not do what the definition
does: its step is looked up again for each item. Yet each function gives one value always and writes
no target. -/
theorem chain_drawn_ne :
    pipeline.WellFormed ∧
    List.Forall₂ interpretation.Desugars pipeline.calls drawn ∧
    (∀ now : World Meddler Unit, now.steps 0 ≠ [] → ∀ body argument,
      (call body argument).Ends now
        (fun given after => given = value body ∧ ∀ cell, after.content cell = now.content cell)
        fun _ _ => False) ∧
    interpretation.results pipeline.requests [] = some [.int 7, .int 7] ∧
    ((pipeline.chain (.standard call)).outcome { client := () }).1 =
      .ok (.listMonad none false [.int 7, .int 7]) ∧
    (({ pipeline with calls := drawn }.chain (.standard call)).outcome { client := () }).1 =
      .ok (.listMonad none false [.int 7]) := by
  have amended : ∀ now : World Meddler Unit, now.steps 0 ≠ [] → ∀ given : Value Meddler,
      (Context.restrict 0 (.function never) >>= fun _ => pure given :
          Action Meddler Unit _).Ends now
        (fun result after => result = given ∧ ∀ cell, after.content cell = now.content cell)
        fun _ _ => False := by
    intro now registered given
    have restricted : (Context.restrict 0 (.function never)).outcome now =
        (pure () : Action _ _ PUnit).outcome
          (now.modifySteps 0 (Call.restrict (.function never)).amend) :=
      Call.outcome_perform (.standard call) (.restrict (.function never)) registered
    rw [ends_bind]
    refine Ends.of_outcome_eq ?_ restricted
    refine ⟨rfl, ?_⟩
    intro cell
    cases cell <;> rfl
  refine ⟨⟨nofun, rfl, ?_, by decide⟩, ?_, ?_, rfl, rfl, rfl⟩
  · simp [pipeline, Call.InBody, Target.accepts]
  · refine .cons (.definition _ _ _ ?_) .nil
    rintro bound given ⟨⟩
    rfl
  · intro now registered body argument
    cases body with
    | thunk => exact amended now registered _
    | source => exact amended now registered _
    | two => exact ⟨rfl, fun _ => rfl⟩
    | never => exact ⟨rfl, fun _ => rfl⟩
    | seven => exact ⟨rfl, fun _ => rfl⟩

end Meddler

end Bindery
