import Bindery.Proofs.Comprehension
import Bindery.Proofs.Contents

set_option autoImplicit false

namespace Bindery

open Bindery.Action

variable {F σ : Type}

/-- What functions give, where they give anything: the items of a source and the answer of any other
function, by the contents of the targets that are bound before. Arguments play no part. -/
structure Interpretation (F : Type) where
  items : F → Contents F → Option (List (Value F))
  answer : F → Contents F → Option (Value F)

namespace Interpretation

variable (interpretation : Interpretation F)

def drawn (source : Callback F) (bound : Contents F) : Option (List (Value F)) :=
  match source with
  | .function body => interpretation.items body bound
  | .object _ => none

def ask (callback : Callback F) (bound : Contents F) : Option (Value F) :=
  match callback with
  | .function body => interpretation.answer body bound
  | .object _ => none

/-- The results of a pipeline that ends with a block of results. A draw goes on for each of its
items, a filter goes on or stops, and a definition goes on with one more value. -/
def results : List (Call F) → Contents F → Option (List (Value F))
  | [.conclude block], bound => do
      let result ← interpretation.ask block bound
      return [result]
  | .draw target source :: calls, bound => do
      let items ← interpretation.drawn source bound
      let lists ← items.mapM fun item => do
        let captured ← target.captures? item
        results calls (bound ++ captured)
      return lists.flatten
  | .restrict predicate :: calls, bound => do
      let verdict ← interpretation.ask predicate bound
      if verdict.isTrue then results calls bound else return []
  | .define target thunk :: calls, bound => do
      let value ← interpretation.ask thunk bound
      let captured ← target.captures? value
      results calls (bound ++ captured)
  | _, _ => none

/-- What the calls that are left give for an item that is captured into a target. -/
def Reads (target : Target) (calls : List (Call F)) (bound : Contents F) (item : Value F)
    (list : List (Value F)) : Prop :=
  ∃ captured, target.captures? item = some captured ∧
    interpretation.results calls (bound ++ captured) = some list

end Interpretation

def Call.cells : Call F → List Cell
  | .draw target _ => target.cells
  | .define target _ => target.cells
  | .restrict _ => []
  | .conclude _ => []

theorem cells_foldl_retarget (qualifiers : List (Qualifier F)) (target : Target) :
    (qualifiers.foldl Qualifier.retarget target).cells =
      target.cells ++ (qualifiers.map Qualifier.call).flatMap Call.cells := by
  induction qualifiers generalizing target with
  | nil => simp
  | cons qualifier rest ih =>
      rw [List.foldl_cons, ih]
      cases qualifier <;>
        simp [Qualifier.retarget, Qualifier.call, Call.cells, Target.cells, Target.allCells]

theorem Clause.cells_fullTarget (clause : Clause F) :
    clause.fullTarget.cells = clause.calls.flatMap Call.cells :=
  cells_foldl_retarget clause.qualifiers clause.target

def earlyCalls (definitions : List (Target × Callback F)) : List (Call F) :=
  definitions.map fun definition => .define definition.1 definition.2

/-- The calls of clauses, the last of which has a block of results. -/
def blockedCalls (clauses : List (Clause F)) (last : Clause F) (body : F) : List (Call F) :=
  clauses.flatMap Clause.calls ++ (last.calls ++ [.conclude (.function body)])

/-- What a function leaves as it was: the contents of some cells, and the steps of a context. -/
structure Untouched (cells : List Cell) (context : Nat) (before after : World F σ) : Prop where
  contents : ∀ cell ∈ cells, after.content cell = before.content cell
  steps : ∀ steps, before.contexts[context]? = some steps → after.contexts[context]? = some steps

/-- Wherever the contents are held, the action gives an expected value and touches nothing. -/
def Tells (cells : List Cell) (context : Nat) (bound : Contents F) (expected : Value F → Prop)
    (action : Action F σ (Value F)) : Prop :=
  ∀ now : World F σ, now.Holds bound →
    action.Ends now (fun value after => expected value ∧ Untouched cells context now after)
      fun _ _ => False

/-- A function answers as is said, whatever its argument. -/
def Callback.Answers (call : F → Option (Value F) → Action F σ (Value F))
    (interpretation : Interpretation F) (cells : List Cell) (context : Nat)
    (callback : Callback F) : Prop :=
  ∀ bound result, interpretation.ask callback bound = some result → ∀ argument,
    Tells cells context bound (· = result) (callback.call (.standard call) argument)

/-- The function of a call does what is said. A source gives a list monad. -/
def Call.Conforms (call : F → Option (Value F) → Action F σ (Value F))
    (interpretation : Interpretation F) (cells : List Cell) (context : Nat) : Call F → Prop
  | .draw _ source => ∀ bound items, interpretation.drawn source bound = some items →
      Tells cells context bound (fun value => ∃ number, value = .listMonad number false items)
        (source.call (.standard call) none)
  | .restrict predicate => predicate.Answers call interpretation cells context
  | .define _ thunk => thunk.Answers call interpretation cells context
  | .conclude block => block.Answers call interpretation cells context

/-- While steps are chained: some contents are held, and the steps are registered. -/
structure Standing (context : Nat) (steps : List (Step F)) (bound : Contents F)
    (now : World F σ) : Prop where
  holds : now.Holds bound
  registered : now.contexts[context]? = some steps

namespace Standing

variable {cells later : List Cell} {context : Nat} {steps : List (Step F)} {bound more : Contents F}
  {now : World F σ}

theorem of_append (standing : Standing context steps (bound ++ more) now) :
    Standing context steps bound now :=
  ⟨fun entry member => standing.holds entry (List.mem_append_left _ member), standing.registered⟩

theorem step? (standing : Standing context steps bound now) (position : Nat) :
    now.step? ⟨context, position⟩ = steps[position]? := by
  simp [World.step?, World.steps, standing.registered]

theorem leadsTo (standing : Standing context steps bound now) :
    now.LeadsTo ((List.range' 0 steps.length).map (⟨context, ·⟩)) steps := by
  refine List.forall₂_iff_get.mpr ⟨by simp, fun position _ inside => ?_⟩
  simp [standing.step?, inside]

theorem ends (standing : Standing context steps bound now) (later : List Cell)
    {expected : Value F → Prop} {action : Action F σ (Value F)}
    (tells : Tells cells context bound expected action)
    (placed : bound.map (·.1) ++ later = cells) :
    action.Ends now (fun value after => expected value ∧ Standing context steps bound after)
      fun _ _ => False := by
  refine (tells now standing.holds).imp ?_
  intro value after told
  refine ⟨told.1, ?_, told.2.steps steps standing.registered⟩
  intro entry member
  have inside : entry.1 ∈ cells := by
    rw [← placed]
    exact List.mem_append_left _ (List.mem_map_of_mem member)
  rw [told.2.contents entry.1 inside, standing.holds entry member]

theorem deposit (standing : Standing context steps bound now) {target : Target} {value : Value F}
    (captured : target.captures? value = some more)
    (different : (bound.map (·.1) ++ target.cells).Nodup) :
    (Bindery.deposit target value).Ends now
      (fun _ after => Standing context steps (bound ++ more) after) fun _ _ => False := by
  obtain ⟨-, inside, apart⟩ := List.nodup_append.mp different
  have elsewhere : ∀ entry ∈ bound, entry.1 ∉ target.cells := by
    intro entry member own
    exact apart entry.1 (List.mem_map_of_mem member) entry.1 own rfl
  have filled := ends_deposit_of_captures captured inside now
  have kept := deposit_preserves_holds target value elsewhere now standing.holds
  have still : (Bindery.deposit target value).Ends now
      (fun _ after => after.contexts[context]? = some steps)
      fun _ after => after.contexts[context]? = some steps :=
    deposit_preserves (fun _ _ _ _ _ _ same => same) target value now standing.registered
  refine (filled.and (kept.and still)).mono ?_ fun _ _ failed => failed.1
  intro _ after reached
  refine ⟨?_, reached.2.2⟩
  intro entry member
  rcases List.mem_append.mp member with earlier | fresh
  · exact reached.2.1 entry earlier
  · exact reached.1 entry fresh

theorem settleAndDeposit (standing : Standing context steps bound now) {target : Target}
    {value : Value F} (captured : target.captures? value = some more)
    (different : (bound.map (·.1) ++ target.cells).Nodup) :
    (Bindery.settleAndDeposit target value).Ends now
      (fun settled after => target.captures? settled = some more ∧
        Standing context steps (bound ++ more) after)
      fun _ _ => False := by
  obtain ⟨settled, pure, still⟩ := exists_settle_of_captures (σ := σ) captured
  rw [Bindery.settleAndDeposit, pure, pure_bind, ends_bind]
  exact (standing.deposit still different).imp fun _ after deposited => ⟨still, deposited⟩

end Standing

namespace Interpretation

section Items

variable {call : F → Option (Value F) → Action F σ (Value F)} {interpretation : Interpretation F}
  {cells later : List Cell} {context : Nat} {steps : List (Step F)} {bound : Contents F}
  {target : Target} {calls : List (Call F)} {now : World F σ}

theorem nodup_of_placed (different : cells.Nodup)
    (placed : bound.map (·.1) ++ (target.cells ++ later) = cells) :
    (bound.map (·.1) ++ target.cells).Nodup := by
  rw [← List.append_assoc] at placed
  exact (List.nodup_append.mp (placed ▸ different)).1

theorem placed_of_captures {item : Value F} {captured : Contents F}
    (captures : target.captures? item = some captured)
    (placed : bound.map (·.1) ++ (target.cells ++ later) = cells) :
    (bound ++ captured).map (·.1) ++ later = cells := by
  rw [List.map_append, Target.cells_of_captures captures, List.append_assoc, placed]

/-- What a filter does to the reading of an item. -/
def Judges (interpretation : Interpretation F) (target : Target) (predicate : Callback F)
    (calls : List (Call F)) (bound : Contents F) (item verdict : Value F) : Prop :=
  ∀ list, interpretation.Reads target (.restrict predicate :: calls) bound item list →
    if verdict.isTrue then interpretation.Reads target calls bound item list else list = []

theorem ends_testItem {predicate : Callback F} {item : Value F} {list : List (Value F)}
    (answers : predicate.Answers call interpretation cells context) (different : cells.Nodup)
    (placed : bound.map (·.1) ++ (target.cells ++ later) = cells)
    (reads : interpretation.Reads target (.restrict predicate :: calls) bound item list)
    (standing : Standing context steps bound now) :
    (testItem (.standard call) target predicate item).Ends now
      (fun verdict after => interpretation.Judges target predicate calls bound item verdict ∧
        Standing context steps bound after)
      fun _ _ => False := by
  obtain ⟨captured, captures, found⟩ := reads
  simp only [results, Option.bind_eq_bind, Option.bind_eq_some_iff] at found
  obtain ⟨verdict, asked, -⟩ := found
  rw [testItem, ends_bind]
  refine (standing.deposit captures (nodup_of_placed different placed)).imp ?_
  intro _ reached deposited
  refine (deposited.ends later (answers _ verdict asked (some item))
    (placed_of_captures captures placed)).imp ?_
  rintro answer after ⟨rfl, kept⟩
  refine ⟨?_, kept.of_append⟩
  rintro list ⟨again, capturesAgain, foundAgain⟩
  obtain rfl : captured = again := Option.some.inj (captures.symm.trans capturesAgain)
  simp only [results, asked, Option.bind_eq_bind, Option.bind_some] at foundAgain
  cases passes : answer.isTrue with
  | true =>
      rw [passes, if_pos rfl] at foundAgain
      exact ⟨captured, captures, foundAgain⟩
  | false =>
      rw [passes, if_neg Bool.false_ne_true] at foundAgain
      exact (Option.some.inj foundAgain).symm

theorem ends_pairItem {added : Target} {thunk : Callback F} {item : Value F}
    {list : List (Value F)} (answers : thunk.Answers call interpretation cells context)
    (different : cells.Nodup) (placed : bound.map (·.1) ++ (target.cells ++ later) = cells)
    (reads : interpretation.Reads target (.define added thunk :: calls) bound item list)
    (standing : Standing context steps bound now) :
    (pairItem (.standard call) target added thunk item).Ends now
      (fun pair after =>
        (∀ list, interpretation.Reads target (.define added thunk :: calls) bound item list →
          interpretation.Reads (.tuple [target, added]) calls bound pair list) ∧
        Standing context steps bound after)
      fun _ _ => False := by
  obtain ⟨captured, captures, found⟩ := reads
  simp only [results, Option.bind_eq_bind, Option.bind_eq_some_iff] at found
  obtain ⟨defined, asked, extra, capturesExtra, -⟩ := found
  rw [pairItem, ends_bind]
  refine (standing.settleAndDeposit captures (nodup_of_placed different placed)).imp ?_
  rintro settled reached ⟨still, deposited⟩
  rw [ends_bind]
  refine (deposited.ends later (answers _ defined asked none)
    (placed_of_captures captures placed)).imp ?_
  rintro _ after ⟨rfl, kept⟩
  obtain ⟨value, pure, stillExtra⟩ := exists_settle_of_captures (σ := σ) capturesExtra
  rw [pure, pure_bind, ends_pure]
  refine ⟨?_, kept.of_append⟩
  rintro list ⟨again, capturesAgain, foundAgain⟩
  obtain rfl : captured = again := Option.some.inj (captures.symm.trans capturesAgain)
  simp only [results, asked, capturesExtra, Option.bind_eq_bind, Option.bind_some] at foundAgain
  refine ⟨captured ++ extra, Target.captures_pair still stillExtra, ?_⟩
  rw [← List.append_assoc]
  exact foundAgain

theorem ends_concludeItem {block : Callback F} {item : Value F} {list : List (Value F)}
    (answers : block.Answers call interpretation cells context) (different : cells.Nodup)
    (placed : bound.map (·.1) ++ (target.cells ++ later) = cells)
    (reads : interpretation.Reads target [.conclude block] bound item list)
    (standing : Standing context steps bound now) :
    (concludeItem (.standard call) target block item).Ends now
      (fun result after =>
        (∀ list, interpretation.Reads target [.conclude block] bound item list →
          list = [result]) ∧
        Standing context steps bound after)
      fun _ _ => False := by
  obtain ⟨captured, captures, found⟩ := reads
  simp only [results, Option.bind_eq_bind, Option.bind_eq_some_iff] at found
  obtain ⟨result, asked, -⟩ := found
  rw [concludeItem, ends_bind]
  refine (standing.settleAndDeposit captures (nodup_of_placed different placed)).imp ?_
  rintro settled reached ⟨-, deposited⟩
  refine (deposited.ends later (answers _ result asked (some settled))
    (placed_of_captures captures placed)).imp ?_
  rintro _ after ⟨rfl, kept⟩
  refine ⟨?_, kept.of_append⟩
  rintro list ⟨again, capturesAgain, foundAgain⟩
  obtain rfl : captured = again := Option.some.inj (captures.symm.trans capturesAgain)
  simp only [results, asked, Option.bind_eq_bind, Option.bind_some] at foundAgain
  exact (Option.some.inj foundAgain).symm

end Items

section Loops

variable {call : F → Option (Value F) → Action F σ (Value F)} {interpretation : Interpretation F}
  {cells later : List Cell} {context : Nat} {steps : List (Step F)} {bound : Contents F}
  {target : Target} {calls : List (Call F)} {items : List (Value F)}
  {lists : List (List (Value F))} {now : World F σ}

/-- Items for a target with a sequence are settled first, which does not change their reading. -/
theorem ends_settleItems
    (reads : List.Forall₂ (interpretation.Reads target calls bound) items lists)
    (standing : Standing context steps bound now) :
    (if target.hasSequence then collect (settle target) items else pure items).Ends now
      (fun settled after =>
        List.Forall₂ (interpretation.Reads target calls bound) settled lists ∧
          Standing context steps bound after)
      fun _ _ => False := by
  split
  · have each : ∀ item ∈ items, ∀ world : World F σ, Standing context steps bound world →
        (settle target item).Ends world
          (fun settled after =>
            (∀ list, interpretation.Reads target calls bound item list →
              interpretation.Reads target calls bound settled list) ∧
            Standing context steps bound after) fun _ _ => False := by
      intro item member world stood
      obtain ⟨list, -, captured, captures, -⟩ := exists_mem_of_forall₂ reads item member
      obtain ⟨settled, pure, still⟩ := exists_settle_of_captures (σ := σ) captures
      rw [pure, ends_pure]
      refine ⟨?_, stood⟩
      rintro list ⟨again, capturesAgain, found⟩
      obtain rfl : captured = again := Option.some.inj (captures.symm.trans capturesAgain)
      exact ⟨captured, still, found⟩
    refine (ends_collect each standing).imp ?_
    rintro settled after ⟨settles, stood⟩
    refine ⟨forall₂_of_forall₂ ?_ reads settles, stood⟩
    intro item list value read keeps
    exact keeps list read
  · exact ⟨reads, standing⟩

theorem reads_of_judges {predicate : Callback F} {verdicts : List (Value F)}
    (reads : List.Forall₂ (interpretation.Reads target (.restrict predicate :: calls) bound)
      items lists)
    (judged : List.Forall₂ (interpretation.Judges target predicate calls bound) items verdicts) :
    ∃ left, left.flatten = lists.flatten ∧
      List.Forall₂ (interpretation.Reads target calls bound)
        (((items.zip verdicts).filter (·.2.isTrue)).map (·.1)) left := by
  induction reads generalizing verdicts with
  | nil =>
      cases judged
      exact ⟨[], rfl, .nil⟩
  | @cons item list items lists read _ ih =>
      cases judged with
      | @cons _ verdict _ verdicts judge judges =>
          obtain ⟨left, same, kept⟩ := ih judges
          have leads := judge list read
          cases passes : verdict.isTrue with
          | true =>
              rw [passes, if_pos rfl] at leads
              refine ⟨list :: left, ?_, ?_⟩
              · rw [List.flatten_cons, List.flatten_cons, same]
              · simpa only [List.zip_cons_cons, List.filter_cons, passes, ↓reduceIte,
                  List.map_cons] using List.Forall₂.cons leads kept
          | false =>
              rw [passes, if_neg Bool.false_ne_true] at leads
              refine ⟨left, ?_, ?_⟩
              · rw [leads, List.flatten_cons, List.nil_append, same]
              · simpa only [List.zip_cons_cons, List.filter_cons, passes, Bool.false_eq_true,
                  ↓reduceIte] using kept

theorem ends_filterItems {predicate : Callback F}
    (answers : predicate.Answers call interpretation cells context) (different : cells.Nodup)
    (placed : bound.map (·.1) ++ (target.cells ++ later) = cells)
    (reads : List.Forall₂ (interpretation.Reads target (.restrict predicate :: calls) bound)
      items lists)
    (standing : Standing context steps bound now) :
    (filterItems (.standard call) target predicate items).Ends now
      (fun kept after =>
        (∃ left, left.flatten = lists.flatten ∧
          List.Forall₂ (interpretation.Reads target calls bound) kept left) ∧
        Standing context steps bound after)
      fun _ _ => False := by
  have settledFirst : filterItems (.standard call) target predicate items =
      (if target.hasSequence then collect (settle target) items else pure items) >>=
        retain (testItem (.standard call) target predicate) := by
    unfold filterItems
    cases target.hasSequence <;> rfl
  rw [settledFirst, ends_bind]
  refine (ends_settleItems reads standing).imp ?_
  rintro settled reached ⟨settledReads, stood⟩
  have tested : ∀ item ∈ settled, ∀ world : World F σ, Standing context steps bound world →
      (testItem (.standard call) target predicate item).Ends world
        (fun verdict after =>
          interpretation.Judges target predicate calls bound item verdict ∧
            Standing context steps bound after) fun _ _ => False := by
    intro item member world held
    obtain ⟨list, -, read⟩ := exists_mem_of_forall₂ settledReads item member
    exact ends_testItem answers different placed read held
  refine (ends_retain tested stood).imp ?_
  rintro _ after ⟨⟨verdicts, judged, rfl⟩, held⟩
  exact ⟨reads_of_judges settledReads judged, held⟩

theorem ends_pairItems {added : Target} {thunk : Callback F}
    (answers : thunk.Answers call interpretation cells context) (different : cells.Nodup)
    (placed : bound.map (·.1) ++ (target.cells ++ later) = cells)
    (reads : List.Forall₂ (interpretation.Reads target (.define added thunk :: calls) bound)
      items lists)
    (standing : Standing context steps bound now) :
    (collect (pairItem (.standard call) target added thunk) items).Ends now
      (fun pairs after =>
        List.Forall₂ (interpretation.Reads (.tuple [target, added]) calls bound) pairs lists ∧
          Standing context steps bound after)
      fun _ _ => False := by
  have paired : ∀ item ∈ items, ∀ world : World F σ, Standing context steps bound world →
      (pairItem (.standard call) target added thunk item).Ends world
        (fun pair after =>
          (∀ list, interpretation.Reads target (.define added thunk :: calls) bound item list →
            interpretation.Reads (.tuple [target, added]) calls bound pair list) ∧
          Standing context steps bound after) fun _ _ => False := by
    intro item member world held
    obtain ⟨list, -, read⟩ := exists_mem_of_forall₂ reads item member
    exact ends_pairItem answers different placed read held
  refine (ends_collect paired standing).imp ?_
  rintro pairs after ⟨made, stood⟩
  refine ⟨forall₂_of_forall₂ ?_ reads made, stood⟩
  intro item list pair read leads
  exact leads list read

/-- The qualifiers of a step run one after the other, each on all items. They leave items for which
the calls that follow give what the qualifiers and these calls give for the items there were. -/
theorem ends_qualifyItems {qualifiers : List (Qualifier F)}
    (answers : ∀ qualifier ∈ qualifiers,
      qualifier.callback.Answers call interpretation cells context)
    (different : cells.Nodup)
    (placed : bound.map (·.1) ++
      (target.cells ++ (qualifiers.map Qualifier.call ++ calls).flatMap Call.cells) = cells)
    (reads : List.Forall₂
      (interpretation.Reads target (qualifiers.map Qualifier.call ++ calls) bound) items lists)
    (standing : Standing context steps bound now) :
    (qualifyItems (.standard call) target qualifiers items).Ends now
      (fun kept after =>
        (∃ left, left.flatten = lists.flatten ∧
          List.Forall₂
            (interpretation.Reads (qualifiers.foldl Qualifier.retarget target) calls bound)
            kept left) ∧
        Standing context steps bound after)
      fun _ _ => False := by
  induction qualifiers generalizing target items lists now with
  | nil => exact ⟨⟨lists, rfl, reads⟩, standing⟩
  | cons qualifier rest ih =>
      rw [List.forall_mem_cons] at answers
      cases qualifier with
      | filter predicate =>
          rw [qualifyItems, ends_bind]
          refine (ends_filterItems answers.1 different placed reads standing).imp ?_
          rintro kept after ⟨⟨left, same, leftReads⟩, stood⟩
          rw [← same]
          exact ih answers.2 placed leftReads stood
      | define added thunk =>
          rw [qualifyItems, ends_bind]
          refine (ends_pairItems answers.1 different placed reads standing).imp ?_
          rintro pairs after ⟨pairReads, stood⟩
          refine ih answers.2 ?_ pairReads stood
          simpa [Target.cells, Target.allCells, Qualifier.call, Call.cells] using placed

theorem ends_concludeItems {block : Callback F}
    (answers : block.Answers call interpretation cells context) (different : cells.Nodup)
    (placed : bound.map (·.1) ++ (target.cells ++ later) = cells)
    (reads : List.Forall₂ (interpretation.Reads target [.conclude block] bound) items lists)
    (standing : Standing context steps bound now) :
    (collect (concludeItem (.standard call) target block) items).Ends now
      (fun values after => values = lists.flatten ∧ Standing context steps bound after)
      fun _ _ => False := by
  have concluded : ∀ item ∈ items, ∀ world : World F σ, Standing context steps bound world →
      (concludeItem (.standard call) target block item).Ends world
        (fun result after =>
          (∀ list, interpretation.Reads target [.conclude block] bound item list →
            list = [result]) ∧
          Standing context steps bound after) fun _ _ => False := by
    intro item member world held
    obtain ⟨list, -, read⟩ := exists_mem_of_forall₂ reads item member
    exact ends_concludeItem answers different placed read held
  refine (ends_collect concluded standing).imp ?_
  rintro values after ⟨made, stood⟩
  have singles : List.Forall₂ (fun value list => list = [value]) values lists := by
    refine forall₂_of_forall₂ ?_ reads made
    intro item list value read leads
    exact leads list read
  refine ⟨?_, stood⟩
  clear made reads concluded
  induction singles with
  | nil => rfl
  | cons single _ ih =>
      subst single
      rw [List.flatten_cons, List.singleton_append, ← ih]

theorem ends_proceedItems {rest : List StepRef} {index : Nat} (different : cells.Nodup)
    (placed : bound.map (·.1) ++ (target.cells ++ later) = cells)
    (reads : List.Forall₂ (interpretation.Reads target calls bound) items lists)
    (chained : ∀ inner list, interpretation.results calls inner = some list →
      inner.map (·.1) ++ later = cells → ∀ world, Standing context steps inner world →
        (chainFrom (.standard call) rest index).Ends world
          (fun value after => value = .listMonad none false list ∧
            Standing context steps inner after) fun _ _ => False)
    (standing : Standing context steps bound now) :
    (gather listItems
      (fun item => (Continuation.proceed target rest index).apply (.standard call) item) items).Ends
      now (fun values after => values = lists.flatten ∧ Standing context steps bound after)
      fun _ _ => False := by
  have proceeded : ∀ item ∈ items, ∀ world : World F σ, Standing context steps bound world →
      ((Continuation.proceed target rest index).apply (.standard call) item).Ends world
        (fun result after => (listItems result).Ends after
          (fun values final =>
            (∀ list, interpretation.Reads target calls bound item list → list = values) ∧
              Standing context steps bound final) fun _ _ => False) fun _ _ => False := by
    intro item member world held
    obtain ⟨list, -, captured, captures, found⟩ := exists_mem_of_forall₂ reads item member
    rw [Continuation.apply, ends_bind]
    refine (held.settleAndDeposit captures (nodup_of_placed different placed)).imp ?_
    rintro settled reached ⟨-, deposited⟩
    refine (chained _ list found (placed_of_captures captures placed) reached deposited).imp ?_
    rintro _ after ⟨rfl, kept⟩
    refine ⟨?_, kept.of_append⟩
    rintro other ⟨again, capturesAgain, foundAgain⟩
    obtain rfl : captured = again := Option.some.inj (captures.symm.trans capturesAgain)
    exact Option.some.inj (foundAgain.symm.trans found)
  refine (ends_gather proceeded standing).imp ?_
  rintro _ after ⟨⟨gathered, made, rfl⟩, stood⟩
  have same : List.Forall₂ (fun values list => list = values) gathered lists := by
    refine forall₂_of_forall₂ ?_ reads made
    intro item list values read leads
    exact leads list read
  have equal : gathered = lists := by
    rw [← List.forall₂_eq_eq_eq]
    exact same.imp fun _ _ eq => eq.symm
  exact ⟨congrArg List.flatten equal, stood⟩

end Loops

theorem exists_reads_of_draw {interpretation : Interpretation F} {target : Target}
    {source : Callback F} {calls : List (Call F)} {bound : Contents F} {results : List (Value F)}
    (found : interpretation.results (.draw target source :: calls) bound = some results) :
    ∃ items lists, interpretation.drawn source bound = some items ∧ results = lists.flatten ∧
      List.Forall₂ (interpretation.Reads target calls bound) items lists := by
  simp only [Interpretation.results, Option.bind_eq_bind, Option.bind_eq_some_iff] at found
  obtain ⟨items, drawn, lists, read, same⟩ := found
  refine ⟨items, lists, drawn, (Option.some.inj same).symm, (forall₂_of_mapM read).imp ?_⟩
  intro item list captured
  exact Option.bind_eq_some_iff.mp captured

section Chain

variable {call : F → Option (Value F) → Action F σ (Value F)} {interpretation : Interpretation F}
  {cells : List Cell} {context : Nat} {steps : List (Step F)}

theorem placed_fullTarget {clause : Clause F} {calls : List (Call F)} {bound : Contents F}
    (placed : bound.map (·.1) ++ (clause.calls ++ calls).flatMap Call.cells = cells) :
    bound.map (·.1) ++ (clause.fullTarget.cells ++ calls.flatMap Call.cells) = cells := by
  rw [clause.cells_fullTarget, ← List.flatMap_append]
  exact placed

theorem ends_chainFrom_of_finish (clause : Clause F) (block : Option F) {calls : List (Call F)}
    {bound : Contents F} {results : List (Value F)} {rest : List StepRef} {position index : Nat}
    (registered : steps[position]? = some (clause.step block))
    (conforms : ∀ request ∈ clause.calls, request.Conforms call interpretation cells context)
    (different : cells.Nodup)
    (placed : bound.map (·.1) ++ (clause.calls ++ calls).flatMap Call.cells = cells)
    (found : interpretation.results (clause.calls ++ calls) bound = some results)
    (unnumbered : ∀ number, finishedNumber number (clause.step block) rest = none)
    (finish : ∀ items lists now,
      List.Forall₂ (interpretation.Reads clause.fullTarget calls bound) items lists →
        Standing context steps bound now →
          (finishItems (.standard call) listItems (clause.step block) (clause.step block) rest
            index items).Ends now
            (fun values after => values = lists.flatten ∧ Standing context steps bound after)
            fun _ _ => False)
    {now : World F σ} (standing : Standing context steps bound now) :
    (chainFrom (.standard call) (⟨context, position⟩ :: rest) index).Ends now
      (fun value after => value = .listMonad none false results ∧
        Standing context steps bound after)
      fun _ _ => False := by
  have present : ∀ reached : World F σ, Standing context steps bound reached →
      (currentStep ⟨context, position⟩).Ends reached
        (fun step after => step = clause.step block ∧ Standing context steps bound after)
        fun _ _ => False := by
    intro reached stood
    unfold Ends
    rw [outcome_currentStep ((stood.step? position).trans registered)]
    exact ⟨rfl, stood⟩
  obtain ⟨items, lists, drawn, rfl, reads⟩ := exists_reads_of_draw found
  rw [Clause.calls, List.forall_mem_cons] at conforms
  have answers : ∀ qualifier ∈ clause.qualifiers,
      qualifier.callback.Answers call interpretation cells context := by
    intro qualifier member
    have conform := conforms.2 _ (List.mem_map_of_mem member)
    cases qualifier <;> exact conform
  rw [chainFrom_cons, ends_bind]
  refine (present now standing).imp ?_
  rintro _ world ⟨rfl, stood⟩
  rw [ends_bind, Step.generate, ends_bind]
  refine (stood.ends _ (conforms.1 bound items drawn) placed).imp ?_
  rintro _ after ⟨⟨number, rfl⟩, called⟩
  rw [applyQualifiers_listMonad, ends_bind]
  refine (ends_qualifyItems answers different placed reads called).imp ?_
  rintro kept reached ⟨⟨left, same, leftReads⟩, qualified⟩
  rw [ends_pure, requireMonadLike_listMonad, pure_bind, ends_bind]
  refine (present reached qualified).imp ?_
  rintro _ again ⟨rfl, found⟩
  rw [finishValue_listMonad, ends_bind, unnumbered]
  refine (finish kept left again leftReads found).imp ?_
  rintro values last ⟨rfl, finished⟩
  rw [ends_pure, same]
  exact ⟨rfl, finished⟩

theorem ends_chainFrom {last : Clause F} {body : F} {clauses : List (Clause F)}
    (conforms : ∀ request ∈ blockedCalls clauses last body,
      request.Conforms call interpretation cells context)
    (different : cells.Nodup) (front : List (Step F))
    (registered : steps = front ++ (clauses.map (·.step none) ++ [last.step (some body)]))
    (index : Nat) {bound : Contents F} {results : List (Value F)}
    (placed : bound.map (·.1) ++ (blockedCalls clauses last body).flatMap Call.cells = cells)
    (found : interpretation.results (blockedCalls clauses last body) bound = some results)
    {now : World F σ} (standing : Standing context steps bound now) :
    (chainFrom (.standard call)
      ((List.range' front.length (clauses.length + 1)).map (⟨context, ·⟩)) index).Ends now
      (fun value after => value = .listMonad none false results ∧
        Standing context steps bound after)
      fun _ _ => False := by
  induction clauses generalizing front index bound results now with
  | nil =>
      have registeredLast : steps[front.length]? = some (last.step (some body)) := by
        simp [registered]
      have concludes := conforms (.conclude (.function body)) (by simp [blockedCalls])
      have lastConforms : ∀ request ∈ last.calls,
          request.Conforms call interpretation cells context :=
        fun request member => conforms request (by simp [blockedCalls, member])
      refine ends_chainFrom_of_finish last (some body) registeredLast lastConforms different placed
        found (fun _ => rfl) ?_ standing
      intro items lists world reads stood
      exact ends_concludeItems concludes different (placed_fullTarget placed) reads stood
  | cons clause rest ih =>
      have split : blockedCalls (clause :: rest) last body =
          clause.calls ++ blockedCalls rest last body := List.append_assoc _ _ _
      rw [split] at conforms placed found
      rw [List.forall_mem_append] at conforms
      have registeredClause : steps[front.length]? = some (clause.step none) := by
        simp [registered]
      have registeredRest : steps = (front ++ [clause.step none]) ++
          (rest.map (·.step none) ++ [last.step (some body)]) := by
        simp [registered]
      rw [List.length_cons, List.range'_succ, List.map_cons]
      refine ends_chainFrom_of_finish clause none registeredClause conforms.1 different placed
        found (fun _ => by simp [finishedNumber]) ?_ standing
      intro items lists world reads stood
      rw [List.range'_succ, List.map_cons]
      refine ends_proceedItems different (placed_fullTarget placed) reads ?_ stood
      intro inner list read innerPlaced reached innerStood
      have chained := ih conforms.2 (front ++ [clause.step none]) registeredRest (index + 1)
        innerPlaced read innerStood
      rw [List.length_append, List.length_singleton, List.range'_succ, List.map_cons] at chained
      exact chained

theorem blockedCalls_register {clauses : List (Clause F)} {last : Clause F}
    (accepts : ∀ clause ∈ clauses, clause.Accepts) (lastAccepts : last.Accepts) (body : F) :
    Call.AllInOrder (blockedCalls clauses last body) [] ∧
      Call.amendAll (blockedCalls clauses last body) [] =
        clauses.map (·.step none) ++ [last.step (some body)] := by
  have lastCalls : last.lastCalls (some (last.qualifiers.length, body)) =
      last.calls ++ [.conclude (.function body)] := by
    simp [Clause.lastCalls, Clause.calls]
  have first := clauses_register accepts []
  have others := last.lastCalls_register ([] ++ clauses.map (·.step none)) lastAccepts
    (some (last.qualifiers.length, body))
  rw [lastCalls] at others
  rw [blockedCalls, Call.allInOrder_append, Call.amendAll_append, first.2, others.2]
  exact ⟨⟨first.1, others.1⟩, rfl⟩

/-- Definitions before the first draw capture their values at once, and register nothing. -/
theorem ends_performDefinitions {definitions : List (Target × Callback F)} {calls : List (Call F)}
    (conforms : ∀ definition ∈ definitions,
      definition.2.Answers call interpretation cells context)
    (accepts : ∀ definition ∈ definitions, definition.1.accepts = true) (different : cells.Nodup)
    (bound : Contents F) {results : List (Value F)}
    (placed : bound.map (·.1) ++ (earlyCalls definitions ++ calls).flatMap Call.cells = cells)
    (found : interpretation.results (earlyCalls definitions ++ calls) bound = some results)
    {now : World F σ} (standing : Standing context [] bound now) :
    (Call.performAll (.standard call) context (earlyCalls definitions)).Ends now
      (fun _ after => ∃ more, more.map (·.1) ++ calls.flatMap Call.cells = cells ∧
        interpretation.results calls more = some results ∧ Standing context [] more after)
      fun _ _ => False := by
  induction definitions generalizing bound now with
  | nil => exact ⟨bound, placed, found, standing⟩
  | cons definition rest ih =>
      obtain ⟨target, thunk⟩ := definition
      rw [List.forall_mem_cons] at conforms accepts
      rw [earlyCalls, List.map_cons, ← earlyCalls, List.cons_append] at found placed
      simp only [Interpretation.results, Option.bind_eq_bind, Option.bind_eq_some_iff] at found
      obtain ⟨value, asked, captured, captures, found⟩ := found
      have empty : now.steps context = [] := by simp [World.steps, standing.registered]
      have defined :=
        Context.outcome_define_of_empty (.standard call) thunk accepts.1 empty
      rw [earlyCalls, List.map_cons, ← earlyCalls, Call.performAll, Call.perform, ends_bind]
      refine Ends.of_outcome_eq ?_ defined
      rw [ends_bind]
      refine (standing.ends _ (conforms.1 bound value asked none) placed).imp ?_
      rintro _ reached ⟨rfl, stood⟩
      refine (stood.deposit captures (nodup_of_placed different placed)).imp ?_
      intro _ after deposited
      exact ih conforms.2 accepts.2 _ (placed_of_captures captures placed) found deposited

end Chain

theorem misplacedBlock?_blocked (clauses : List (Clause F)) (last : Clause F) (body : F) :
    misplacedBlock? (clauses.map (·.step none) ++ [last.step (some body)]) = none := by
  simp [misplacedBlock?, Clause.step, Step.hasBlock, Callback.isNull]

theorem ends_steps {call : F → Option (Value F) → Action F σ (Value F)}
    {interpretation : Interpretation F} {cells : List Cell} {start : World F σ}
    {definitions : List (Target × Callback F)} {clauses : List (Clause F)} {last : Clause F}
    {body : F} (accepts : ∀ definition ∈ definitions, definition.1.accepts = true)
    (clausesAccept : ∀ clause ∈ clauses, clause.Accepts) (lastAccepts : last.Accepts)
    {calls : List (Call F)}
    (built : calls = earlyCalls definitions ++ blockedCalls clauses last body)
    (different : cells.Nodup) (placed : calls.flatMap Call.cells = cells)
    (conforms : ∀ definition ∈ definitions,
      definition.2.Answers call interpretation cells start.contexts.length)
    {results : List (Value F)} (found : interpretation.results calls [] = some results) :
    (Description.steps fun context => Call.performAll (.standard call) context calls).Ends start
      (fun refs after =>
        refs = (List.range' 0 (clauses.length + 1)).map (⟨start.contexts.length, ·⟩) ∧
          ∃ more, more.map (·.1) ++ (blockedCalls clauses last body).flatMap Call.cells = cells ∧
            interpretation.results (blockedCalls clauses last body) more = some results ∧
            Standing start.contexts.length
              (clauses.map (·.step none) ++ [last.step (some body)]) more after)
      fun _ _ => False := by
  subst built
  have opened : Standing start.contexts.length [] []
      { start with contexts := start.contexts ++ [[]],
                   opened := start.contexts.length :: start.opened } :=
    ⟨nofun, by simp⟩
  obtain ⟨inOrder, registers⟩ := blockedCalls_register clausesAccept lastAccepts body
  have defined := ends_performDefinitions conforms accepts different [] placed found opened
  simp only [Description.steps, Context.withNew, Context.create, ends_bind, ends_keepOpened,
    ends_get, ends_modify, ends_pure, Call.performAll_append]
  refine defined.imp ?_
  rintro _ reached ⟨more, morePlaced, moreFound, stood⟩
  have empty : reached.steps start.contexts.length = [] := by
    simp [World.steps, stood.registered]
  obtain ⟨known, -⟩ := List.getElem?_eq_some_iff.mp stood.registered
  have performed := Call.outcome_performAll (.standard call) _ known (empty ▸ inOrder)
  have registered : (reached.contexts.modify start.contexts.length
      (Call.amendAll (blockedCalls clauses last body)))[start.contexts.length]? =
        some (clauses.map (·.step none) ++ [last.step (some body)]) := by
    rw [List.getElem?_modify_eq, stood.registered, Option.map_eq_map, Option.map_some, registers]
  unfold Ends
  rw [performed]
  refine ⟨?_, more, morePlaced, moreFound, ?_, registered⟩
  · simp [World.steps, World.modifySteps, registered, List.range_eq_range']
  · intro entry member
    rw [← stood.holds entry member]
    cases entry.1 <;> rfl

/-- A pipeline gives the results that it is read as, whatever the targets held before. -/
theorem chain_eq_results {call : F → Option (Value F) → Action F σ (Value F)}
    (interpretation : Interpretation F) {start : World F σ}
    {definitions : List (Target × Callback F)} {clauses : List (Clause F)} {last : Clause F}
    {body : F} (accepts : ∀ definition ∈ definitions, definition.1.accepts = true)
    (clausesAccept : ∀ clause ∈ clauses, clause.Accepts) (lastAccepts : last.Accepts)
    {calls : List (Call F)}
    (built : calls = earlyCalls definitions ++ blockedCalls clauses last body)
    (different : (calls.flatMap Call.cells).Nodup)
    (conforms : ∀ request ∈ calls, request.Conforms call interpretation
      (calls.flatMap Call.cells) start.contexts.length)
    {results : List (Value F)} (found : interpretation.results calls [] = some results) :
    ∃ after,
      (Description.chain (.standard call) fun context =>
        Call.performAll (.standard call) context calls).outcome start =
        (.ok (.listMonad none false results), after) := by
  have definitionsConform : ∀ definition ∈ definitions,
      definition.2.Answers call interpretation (calls.flatMap Call.cells)
        start.contexts.length := by
    intro definition member
    have early : Call.define definition.1 definition.2 ∈ calls := by
      rw [built]
      exact List.mem_append_left _ (List.mem_map_of_mem member)
    exact conforms _ early
  have blockedConform : ∀ request ∈ blockedCalls clauses last body,
      request.Conforms call interpretation (calls.flatMap Call.cells) start.contexts.length := by
    intro request member
    exact conforms request (built ▸ List.mem_append_right _ member)
  have chained : (Description.chain (.standard call) fun context =>
      Call.performAll (.standard call) context calls).Ends start
      (fun value _ => value = .listMonad none false results) fun _ _ => False := by
    rw [Description.chain, ends_bind]
    refine (ends_steps accepts clausesAccept lastAccepts built different rfl definitionsConform
      found).imp ?_
    rintro _ reached ⟨rfl, more, placed, moreFound, stood⟩
    have lengths : (clauses.map (·.step none) ++ [last.step (some body)]).length =
        clauses.length + 1 := by simp
    have leads := stood.leadsTo
    rw [lengths] at leads
    have chained := outcome_chainSteps leads (by simp) (misplacedBlock?_blocked clauses last body)
      (.standard call)
    have given := ends_chainFrom blockedConform different [] rfl 0 placed moreFound stood
    exact (given.imp fun _ _ ended => ended.1).of_outcome_eq chained
  obtain ⟨value, after, reached, rfl⟩ := chained.exists_ok
  exact ⟨after, reached⟩

end Interpretation

end Bindery
