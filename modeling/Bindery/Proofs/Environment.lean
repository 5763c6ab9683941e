import Bindery.Proofs.Fitting
import Bindery.Proofs.Registration
import Bindery.Proofs.Qualification

set_option autoImplicit false

namespace Bindery

/-- Bindings of slots, in the order in which they were made. -/
abbrev Env (F : Type) := List (String × Value F)

/-- What functions give, where they give anything: the items of a source in an environment, and the
answer of any other function to its argument. -/
structure Reading (F : Type) where
  items : F → Env F → Option (List (Value F))
  answer : F → Option (Value F) → Env F → Option (Value F)

/-- A clause: items drawn from a source, bound to a target, and then qualified. -/
structure Clause (F : Type) where
  target : Target
  source : F
  qualifiers : List (Qualifier F) := []

/-- A comprehension: definitions, then clauses, the last of which may have a block of results. The
place of the block says how many qualifiers of the last clause are made before it. -/
structure Comprehension (F : Type) where
  definitions : List (Target × Callback F) := []
  clauses : List (Clause F) := []
  last : Clause F
  result : Option (Nat × F) := none

variable {F σ : Type}

namespace Reading

variable (reading : Reading F)

/-- The answer of what was given for a function. -/
def ask (callback : Callback F) (argument : Option (Value F)) (env : Env F) : Option (Value F) :=
  match callback with
  | .function body => reading.answer body argument env
  | .object _ => none

/-- The rows that an item leads to: the item as the qualifiers leave it, with all bindings, or none
if it is dropped. -/
def qualify : List (Qualifier F) → Env F → Value F → Option (List (Env F × Value F))
  | [], env, item => some [(env, item)]
  | .filter predicate :: qualifiers, env, item => do
      let verdict ← reading.ask predicate (some item) env
      if verdict.isTrue then qualify qualifiers env item else return []
  | .define target thunk :: qualifiers, env, item => do
      let defined ← reading.ask thunk none env
      qualify qualifiers (env ++ target.bindings defined) (.bundle [item, defined])

/-- The rows of a clause. -/
def rows (clause : Clause F) (env : Env F) : Option (List (Env F × Value F)) := do
  let items ← reading.items clause.source env
  let rows ← items.mapM fun item =>
    reading.qualify clause.qualifiers (env ++ clause.target.bindings item) item
  return rows.flatten

/-- The result that a row of the last clause gives. -/
def conclude (block : Option F) (row : Env F × Value F) : Option (Value F) :=
  match block with
  | some body => reading.answer body (some row.2) row.1
  | none => some row.2

/-- The results of clauses, the last of which is given apart. -/
def results (last : Clause F) (block : Option F) :
    List (Clause F) → Env F → Option (List (Value F))
  | [], env => do
      let rows ← reading.rows last env
      rows.mapM (reading.conclude block)
  | clause :: clauses, env => do
      let rows ← reading.rows clause env
      let lists ← rows.mapM fun row => results last block clauses row.1
      return lists.flatten

def bind : List (Target × Callback F) → Env F → Option (Env F)
  | [], env => some env
  | (target, thunk) :: definitions, env => do
      let defined ← reading.ask thunk none env
      bind definitions (env ++ target.bindings defined)

end Reading

/-- The items of a comprehension, read as nested loops. -/
def Comprehension.items (comprehension : Comprehension F) (reading : Reading F) :
    Option (List (Value F)) := do
  let env ← reading.bind comprehension.definitions []
  reading.results comprehension.last (comprehension.result.map (·.2)) comprehension.clauses env

def Clause.calls (clause : Clause F) : List (Call F) :=
  .draw clause.target (.function clause.source) :: clause.qualifiers.map Qualifier.call

def Clause.lastCalls (clause : Clause F) : Option (Nat × F) → List (Call F)
  | none => clause.calls
  | some (place, body) =>
      .draw clause.target (.function clause.source) ::
        (clause.qualifiers.take place).map Qualifier.call ++
          .conclude (.function body) :: (clause.qualifiers.drop place).map Qualifier.call

namespace Comprehension

/-- The calls that a comprehension makes on its context, definitions first. -/
def calls (comprehension : Comprehension F) : List (Call F) :=
  comprehension.definitions.map (fun definition => .define definition.1 definition.2) ++
    comprehension.clauses.flatMap Clause.calls ++
      comprehension.last.lastCalls comprehension.result

def description (meaning : Meaning F σ) (comprehension : Comprehension F) : Description F σ :=
  fun context => Call.performAll meaning context comprehension.calls

end Comprehension

def Target.IsPlain : Target → Prop
  | .discard => True
  | .slot _ _ => True
  | _ => False

namespace Target

variable {target : Target}

theorem IsPlain.accepts (plain : target.IsPlain) : target.accepts = true := by
  cases target with
  | discard | slot => rfl
  | _ => exact plain.elim

theorem IsPlain.slotsOnly (plain : target.IsPlain) : target.SlotsOnly := by
  cases target with
  | discard | slot => simp [SlotsOnly]
  | _ => exact plain.elim

theorem IsPlain.fits (plain : target.IsPlain) (value : Value F) : target.Fits value := by
  cases target with
  | discard | slot => simp [Takes]
  | _ => exact plain.elim

end Target

namespace Qualifier

def slotKeys : Qualifier F → List String
  | .filter _ => []
  | .define target _ => target.slotKeys

def IsPlain : Qualifier F → Prop
  | .filter _ => True
  | .define target _ => target.IsPlain

end Qualifier

/-- Plain qualifiers leave a target with slots only, and add their own. -/
theorem slotsOnly_and_slotKeys_retarget (qualifiers : List (Qualifier F)) (target : Target)
    (plain : ∀ qualifier ∈ qualifiers, qualifier.IsPlain) (slots : target.SlotsOnly) :
    (qualifiers.foldl Qualifier.retarget target).SlotsOnly ∧
      (qualifiers.foldl Qualifier.retarget target).slotKeys =
        target.slotKeys ++ qualifiers.flatMap Qualifier.slotKeys := by
  induction qualifiers generalizing target with
  | nil => simpa using slots
  | cons qualifier rest ih =>
      rw [List.forall_mem_cons] at plain
      cases qualifier with
      | filter predicate => exact ih target plain.2 slots
      | define added thunk =>
          have pairSlots := (Target.slotsOnly_pair target added).mpr
            ⟨slots, Target.IsPlain.slotsOnly plain.1⟩
          simpa [Qualifier.retarget, Qualifier.slotKeys] using ih _ plain.2 pairSlots

namespace Clause

def slotKeys (clause : Clause F) : List String :=
  clause.target.slotKeys ++ clause.qualifiers.flatMap Qualifier.slotKeys

def IsPlain (clause : Clause F) : Prop :=
  clause.target.IsPlain ∧ ∀ qualifier ∈ clause.qualifiers, qualifier.IsPlain

/-- The target of a clause with all definitions. -/
def fullTarget (clause : Clause F) : Target :=
  clause.qualifiers.foldl Qualifier.retarget clause.target

theorem IsPlain.slotsOnly {clause : Clause F} (plain : clause.IsPlain) :
    clause.fullTarget.SlotsOnly :=
  (slotsOnly_and_slotKeys_retarget _ _ plain.2 plain.1.slotsOnly).1

theorem IsPlain.slotKeys {clause : Clause F} (plain : clause.IsPlain) :
    clause.fullTarget.slotKeys = clause.slotKeys :=
  (slotsOnly_and_slotKeys_retarget _ _ plain.2 plain.1.slotsOnly).2

/-- Whether the targets of a clause can take values at all. -/
structure Accepts (clause : Clause F) : Prop where
  target : clause.target.accepts = true
  definitions : ∀ target thunk, Qualifier.define target thunk ∈ clause.qualifiers →
    target.accepts = true

theorem IsPlain.accepts {clause : Clause F} (plain : clause.IsPlain) : clause.Accepts where
  target := plain.1.accepts
  definitions _ _ member := Target.IsPlain.accepts (plain.2 _ member)

def step (clause : Clause F) (block : Option F) : Step F :=
  { ownTarget := clause.target
    source := .function clause.source
    qualifiers := clause.qualifiers
    block := match block with
      | some body => .function body
      | none => .object .null }

end Clause

namespace Comprehension

def slotKeys (comprehension : Comprehension F) : List String :=
  comprehension.definitions.flatMap (·.1.slotKeys) ++
    (comprehension.clauses.flatMap Clause.slotKeys ++ comprehension.last.slotKeys)

/-- Whether all targets are slots or discard, and no slot is bound twice. -/
structure IsPlain (comprehension : Comprehension F) : Prop where
  definitions : ∀ definition ∈ comprehension.definitions, definition.1.IsPlain
  clauses : ∀ clause ∈ comprehension.clauses, clause.IsPlain
  last : comprehension.last.IsPlain
  different : comprehension.slotKeys.Nodup

def steps (comprehension : Comprehension F) : List (Step F) :=
  comprehension.clauses.map (·.step none) ++
    [comprehension.last.step (comprehension.result.map (·.2))]

end Comprehension

end Bindery
