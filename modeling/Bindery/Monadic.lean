import Bindery.Deposit

set_option autoImplicit false

namespace Bindery

variable {F σ : Type}

/-- Fail unless a value has every operation that chaining steps asks of it. -/
def requireMonadLike (index : Int) (value : Value F) : Action F σ PUnit :=
  if value.isMonadLike then return ()
  else throw (.notMonadLike index value.typeName value.lacking)

def collect (run : ItemAction F σ) :
    List (Value F) → Action F σ (List (Value F))
  | [] => return []
  | item :: items => do
      let result ← run item
      let results ← collect run items
      return result :: results

theorem collect_append (run : ItemAction F σ) (first second : List (Value F)) :
    collect run (first ++ second) = do
      let before ← collect run first
      let after ← collect run second
      return before ++ after := by
  induction first with
  | nil => simp [collect]
  | cons item items ih => simp [collect, ih]

def retain (run : ItemAction F σ) :
    List (Value F) → Action F σ (List (Value F))
  | [] => return []
  | item :: items => do
      let verdict ← run item
      let kept ← retain run items
      return if verdict.isTrue then item :: kept else kept

theorem retain_append (run : ItemAction F σ) (first second : List (Value F)) :
    retain run (first ++ second) = do
      let before ← retain run first
      let after ← retain run second
      return before ++ after := by
  induction first with
  | nil => simp [retain]
  | cons item items ih =>
      simp only [List.cons_append, retain, ih, bind_assoc, pure_bind]
      congr 1
      funext verdict
      cases verdict.isTrue <;> simp

/-- The items of the results of an action, each taken from its result at once. -/
def gather (itemsOf : Value F → Action F σ (List (Value F)))
    (run : ItemAction F σ) : List (Value F) → Action F σ (List (Value F))
  | [] => return []
  | item :: items => do
      let result ← run item
      let first ← itemsOf result
      let others ← gather itemsOf run items
      return first ++ others

theorem gather_append (itemsOf : Value F → Action F σ (List (Value F))) (run : ItemAction F σ)
    (first second : List (Value F)) :
    gather itemsOf run (first ++ second) = do
      let before ← gather itemsOf run first
      let after ← gather itemsOf run second
      return before ++ after := by
  induction first with
  | nil => simp [gather]
  | cons item items ih =>
      simp only [List.cons_append, gather, ih, bind_assoc, pure_bind, List.append_assoc]

/-- The items of a list monad, which is all that an eager list monad can be extended by. -/
def listItems : Value F → Action F σ (List (Value F))
  | .listMonad _ _ items => return items
  | _ => throw (.fault (.needs "flat_map" .listMonad))

def recordApplied (traced : Bool) (operation : Operation) (items : List (Value F)) :
    Action F σ PUnit :=
  if traced then Action.record (.applied operation items.length) else return ()

/-- Call an operation of a stub, which only gives its fixed result. -/
def callStub (operation : Operation) (value : Value F) : Action F σ (Value F) :=
  match value with
  | .stub _ methods _ =>
      match methods.lookup operation with
      | some result => do
          Action.record (.stubbed operation)
          return result
      | none => throw (.missingOperation operation value.typeName)
  | _ => throw (.missingOperation operation value.typeName)

namespace Value

def map (continuation : Continuation F) (run : ItemAction F σ) : ItemAction F σ
  | .listMonad _ traced items => do
      recordApplied traced .map items
      return .listMonad none traced (← collect run items)
  | .just _ content => return .just none (← run content)
  | .nothing number => return .nothing number
  | .deferred _ items stages =>
      return .deferred none items (stages ++ [⟨.map, continuation⟩])
  | value => callStub .map value

def filter (continuation : Continuation F) (run : ItemAction F σ) : ItemAction F σ
  | .listMonad _ traced items => do
      recordApplied traced .filter items
      return .listMonad none traced (← retain run items)
  | .just number content => do
      let verdict ← run content
      return if verdict.isTrue then .just number content else .nothing none
  | .nothing _ => return .nothing none
  | .deferred _ items stages =>
      return .deferred none items (stages ++ [⟨.filter, continuation⟩])
  | value => callStub .filter value

def flatMap (continuation : Continuation F) (run : ItemAction F σ) : ItemAction F σ
  | .listMonad _ traced items => do
      recordApplied traced .flatMap items
      return .listMonad none traced (← gather listItems run items)
  | .just _ content => run content
  | .nothing number => return .nothing number
  | .deferred _ items stages =>
      return .deferred none items (stages ++ [⟨.flatMap, continuation⟩])
  | value => callStub .flatMap value

end Value

def Meaning.standard (call : F → Option (Value F) → Action F σ (Value F)) : Meaning F σ :=
  { call, map := Value.map, filter := Value.filter, flatMap := Value.flatMap }

end Bindery
