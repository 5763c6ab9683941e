import Bindery.Proofs.Delivery

set_option autoImplicit false

namespace Bindery

open Bindery.Action

variable {F σ : Type}

namespace Delivery

variable {delivery : Delivery F σ} {call : F → Option (Value F) → Action F σ (Value F)}

section Items

variable {target added : Target} {callback : Callback F} {item : Value F}

theorem Fits.along_testItem (fits : delivery.Fits call)
    (judges : ∀ body, callback = .function body → delivery.usage.judges body)
    (free : item.isFree = true) :
    delivery.Along [] (Agreed fun _ => True)
      (testItem (.standard (watching call)) target callback item)
      (testItem (.standard (watching (listing call))) target callback item) := by
  refine (along_deposit target free).bind (fun _ => (ordinary_call _ _).grows) ?_
  rintro _ _ _ ⟨rfl, -, -⟩
  refine (fits.along_judge judges (some item) free).mono ?_
  rintro _ _ _ ⟨none_left, same, -⟩
  exact ⟨none_left, same, trivial⟩

theorem Fits.along_concludeItem (fits : delivery.Fits call)
    (judges : ∀ body, callback = .function body → delivery.usage.judges body)
    (delivers : target.Delivers item) :
    delivery.Along item.exposed (Agreed fun result => result.isFree = true)
      (concludeItem (.standard (watching call)) target callback item)
      (concludeItem (.standard (watching (listing call))) target callback
        (item.listed delivery.contents)) := by
  refine (along_settleAndDeposit delivers).bind (fun _ => (ordinary_call _ _).grows) ?_
  rintro _ _ settled ⟨rfl, rfl, free⟩
  exact fits.along_judge judges (some settled) free

theorem Fits.along_pairItem (fits : delivery.Fits call)
    (defines : ∀ body, callback = .function body → delivery.usage.defines body added)
    (delivers : target.Delivers item) :
    delivery.Along item.exposed (Agreed fun bundle => bundle.isFree = true)
      (pairItem (.standard (watching call)) target added callback item)
      (pairItem (.standard (watching (listing call))) target added callback
        (item.listed delivery.contents)) := by
  have settles : ∀ settled defined : Value F, Ordinary (watching call)
      (settle added defined >>= fun second => pure (Value.bundle [settled, second])) :=
    fun _ defined => (ordinary_settle added defined).bind fun _ => ordinary_pure _
  refine (along_settleAndDeposit delivers).bind (fun settled =>
    ((ordinary_call callback none).bind fun defined => settles settled defined).grows) ?_
  rintro _ _ settled ⟨rfl, rfl, free⟩
  refine (fits.along_define defines).bind (fun defined => (settles settled defined).grows) ?_
  rintro _ defined _ ⟨rfl, rfl, delivered⟩
  refine (along_settle delivered).bind_pure ?_
  rintro _ _ second ⟨rfl, rfl, secondFree⟩
  refine ⟨rfl, rfl, ?_⟩
  simp [Value.isFree, Value.areFree, free, secondFree]

end Items

section Lists

variable {run runSecond : ItemAction F (σ × List (Visit F))}

theorem along_collect (ordinary : ∀ item, Ordinary (watching call) (run item))
    {items : List (Value F)}
    (each : ∀ item ∈ items, delivery.Along item.exposed (Agreed fun made => made.isFree = true)
      (run item) (runSecond (item.listed delivery.contents))) :
    delivery.Along (Value.allExposed items) (Agreed fun made => Value.areFree made = true)
      (collect run items) (collect runSecond (Value.allListed delivery.contents items)) := by
  induction items with
  | nil => exact along_pure ⟨rfl, rfl, rfl⟩
  | cons item rest ih =>
      rw [List.forall_mem_cons] at each
      refine each.1.bind_frame _ (fun _ => ((ordinary_collect ordinary rest).bind fun _ =>
        ordinary_pure _).grows) ?_
      rintro _ _ first ⟨rfl, rfl, firstFree⟩
      refine (ih each.2).bind_pure ?_
      rintro _ _ others ⟨rfl, rfl, othersFree⟩
      refine ⟨rfl, rfl, ?_⟩
      simp only [Value.areFree, firstFree, othersFree, Bool.and_self]

theorem along_retain (ordinary : ∀ item, Ordinary (watching call) (run item))
    {items : List (Value F)} (free : Value.areFree items = true)
    (each : ∀ item ∈ items, delivery.Along [] (Agreed fun _ => True) (run item)
      (runSecond item)) :
    delivery.Along [] (Agreed fun kept => Value.areFree kept = true) (retain run items)
      (retain runSecond items) := by
  induction items with
  | nil => exact along_pure ⟨rfl, rfl, rfl⟩
  | cons item rest ih =>
      rw [List.forall_mem_cons] at each
      simp only [Value.areFree, Bool.and_eq_true] at free
      refine each.1.bind (fun _ => ((ordinary_retain ordinary rest).bind fun _ =>
        ordinary_pure _).grows) ?_
      rintro _ _ verdict ⟨rfl, rfl, -⟩
      refine (ih free.2 each.2).bind_pure ?_
      rintro _ _ others ⟨rfl, rfl, othersFree⟩
      refine ⟨rfl, rfl, ?_⟩
      split
      · rw [Value.areFree, free.1, othersFree]
        rfl
      · exact othersFree

theorem along_gather (ordinary : ∀ item, Ordinary (watching call) (run item))
    {items : List (Value F)}
    (each : ∀ item ∈ items, delivery.Along item.exposed (Agreed fun _ => True) (run item)
      (runSecond (item.listed delivery.contents))) :
    delivery.Along (Value.allExposed items) (Agreed fun _ => True) (gather listItems run items)
      (gather listItems runSecond (Value.allListed delivery.contents items)) := by
  induction items with
  | nil => exact along_pure ⟨rfl, rfl, trivial⟩
  | cons item rest ih =>
      rw [List.forall_mem_cons] at each
      have others : ∀ first, Ordinary (watching call)
          (gather listItems run rest >>= fun others => pure (first ++ others)) :=
        fun _ => (ordinary_gather ordinary ordinary_listItems rest).bind fun _ => ordinary_pure _
      refine each.1.bind_frame _ (fun result =>
        ((ordinary_listItems result).bind fun first => others first).grows) ?_
      rintro _ _ result ⟨rfl, rfl, -⟩
      have taken : delivery.Along [] (Agreed fun _ => True) (listItems result)
          (listItems result) := by
        cases result with
        | listMonad number traced items => exact along_pure ⟨rfl, rfl, trivial⟩
        | _ => exact along_throw _
      refine taken.bind_frame _ (fun first => (others first).grows) ?_
      rintro _ _ first ⟨rfl, rfl, -⟩
      refine (ih each.2).bind_pure ?_
      rintro _ _ gathered ⟨rfl, rfl, -⟩
      exact ⟨rfl, rfl, trivial⟩

end Lists

structure FreeMonad (value : Value F) : Prop where
  free : value.isFree = true
  delivers : ∀ target : Target, target.DeliversMonad value

theorem requireMonadLike_of_deliversMonad {target : Target} {value : Value F}
    (delivers : target.DeliversMonad value) (index : Int) :
    (requireMonadLike index value : Action F σ PUnit) = pure () := by
  cases value with
  | listMonad number traced items => rfl
  | just number content => rfl
  | nothing number => rfl
  | _ => exact delivers.elim

theorem requireMonadLike_listed {target : Target} {value : Value F}
    (delivers : target.DeliversMonad value) (contents : Nat → List (Value F)) (index : Int) :
    (requireMonadLike index (value.listed contents) : Action F σ PUnit) = pure () := by
  cases value with
  | listMonad number traced items => rfl
  | just number content => rfl
  | nothing number => rfl
  | _ => exact delivers.elim

section Monads

variable {run runSecond : ItemAction F (σ × List (Visit F))} {target : Target} {value : Value F}

theorem along_recordApplied (traced : Bool) (operation : Operation)
    {items others : List (Value F)} (same : others.length = items.length) :
    delivery.Along [] (Agreed fun _ => True) (recordApplied traced operation items)
      (recordApplied traced operation others) := by
  have written : (recordApplied traced operation others : Action F (σ × List (Visit F)) PUnit) =
      recordApplied traced operation items := by
    rw [recordApplied, recordApplied, same]
  rw [written]
  exact along_of_indifferent (indifferent_recordApplied traced operation items)
    (Preserves.ite (preserves_modify fun _ ready => ready.aside _ _) (preserves_pure _))
    fun _ _ => Ends.of_forall (fun _ _ => trivial) fun _ _ => trivial

theorem length_allListed (contents : Nat → List (Value F)) (items : List (Value F)) :
    (Value.allListed contents items).length = items.length := by
  rw [Value.allListed_eq_map, List.length_map]

theorem along_map (continuation : Continuation F)
    (ordinary : ∀ item, Ordinary (watching call) (run item))
    (each : ∀ item, target.Delivers item →
      delivery.Along item.exposed (Agreed fun made => made.isFree = true) (run item)
        (runSecond (item.listed delivery.contents)))
    (delivers : target.DeliversMonad value) :
    delivery.Along value.exposed (Agreed FreeMonad) (value.map continuation run)
      ((value.listed delivery.contents).map continuation runSecond) := by
  cases value with
  | listMonad number traced items =>
      have applied : delivery.Along (σ := σ) [] _ _ _ :=
        along_recordApplied traced .map (length_allListed delivery.contents items)
      refine applied.bind_frame (Value.allExposed items) (fun _ =>
        ((ordinary_collect ordinary items).bind fun _ => ordinary_pure _).grows) ?_
      rintro _ _ _ ⟨rfl, -, -⟩
      refine (along_collect ordinary fun item member =>
        each item (delivers item member)).bind_pure ?_
      rintro _ _ made ⟨rfl, rfl, free⟩
      exact ⟨rfl, rfl, free, fun target item member =>
        target.delivers_of_isFree ((Value.areFree_iff made).mp free item member)⟩
  | just number content =>
      refine (each content delivers).bind_pure ?_
      rintro _ _ made ⟨rfl, rfl, free⟩
      exact ⟨rfl, rfl, free, fun target => target.delivers_of_isFree free⟩
  | nothing number => exact along_pure ⟨rfl, rfl, rfl, fun _ => trivial⟩
  | _ => exact delivers.elim

theorem along_filter (continuation : Continuation F)
    (ordinary : ∀ item, Ordinary (watching call) (run item))
    (each : ∀ item : Value F, item.isFree = true →
      delivery.Along [] (Agreed fun _ => True) (run item) (runSecond item))
    (monad : FreeMonad value) :
    delivery.Along [] (Agreed FreeMonad) (value.filter continuation run)
      (value.filter continuation runSecond) := by
  have delivers := monad.delivers .discard
  cases value with
  | listMonad number traced items =>
      refine (along_recordApplied traced .filter rfl).bind (fun _ =>
        ((ordinary_retain ordinary items).bind fun _ => ordinary_pure _).grows) ?_
      rintro _ _ _ ⟨rfl, -, -⟩
      refine (along_retain ordinary monad.free fun item member =>
        each item ((Value.areFree_iff items).mp monad.free item member)).bind_pure ?_
      rintro _ _ kept ⟨rfl, rfl, free⟩
      exact ⟨rfl, rfl, free, fun target item member =>
        target.delivers_of_isFree ((Value.areFree_iff kept).mp free item member)⟩
  | just number content =>
      refine (each content monad.free).bind_pure ?_
      rintro _ _ verdict ⟨rfl, rfl, -⟩
      refine ⟨rfl, rfl, ?_⟩
      split
      · exact monad
      · exact ⟨rfl, fun _ => trivial⟩
  | nothing number => exact along_pure ⟨rfl, rfl, rfl, fun _ => trivial⟩
  | _ => exact delivers.elim

theorem along_flatMap (continuation : Continuation F)
    (ordinary : ∀ item, Ordinary (watching call) (run item))
    (each : ∀ item, target.Delivers item →
      delivery.Along item.exposed (Agreed fun _ => True) (run item)
        (runSecond (item.listed delivery.contents)))
    (delivers : target.DeliversMonad value) :
    delivery.Along value.exposed (Agreed fun _ => True) (value.flatMap continuation run)
      ((value.listed delivery.contents).flatMap continuation runSecond) := by
  cases value with
  | listMonad number traced items =>
      have applied : delivery.Along (σ := σ) [] _ _ _ :=
        along_recordApplied traced .flatMap (length_allListed delivery.contents items)
      refine applied.bind_frame (Value.allExposed items) (fun _ =>
        ((ordinary_gather ordinary ordinary_listItems items).bind fun _ =>
          ordinary_pure _).grows) ?_
      rintro _ _ _ ⟨rfl, -, -⟩
      refine (along_gather ordinary fun item member =>
        each item (delivers item member)).bind_pure ?_
      rintro _ _ made ⟨rfl, rfl, -⟩
      exact ⟨rfl, rfl, trivial⟩
  | just number content => exact each content delivers
  | nothing number => exact along_pure ⟨rfl, rfl, trivial⟩
  | _ => exact delivers.elim

end Monads

theorem freeMonad_of_not_hasSequence {target : Target} {value : Value F}
    (delivers : target.DeliversMonad value) (absent : target.hasSequence = false) :
    FreeMonad value := by
  cases value with
  | listMonad number traced items =>
      have free : ∀ item ∈ items, item.isFree = true := fun item member =>
        (delivers item member).isFree absent
      exact ⟨(Value.areFree_iff items).mpr free, fun target item member =>
        target.delivers_of_isFree (free item member)⟩
  | just number content =>
      have free : content.isFree = true := delivers.isFree absent
      exact ⟨free, fun target => target.delivers_of_isFree free⟩
  | nothing number => exact ⟨rfl, fun _ => trivial⟩
  | _ => exact delivers.elim

section Chain

variable {target added : Target} {callback : Callback F} {value : Value F}

theorem Fits.along_applyFilter (fits : delivery.Fits call)
    (judges : ∀ body, callback = .function body → delivery.usage.judges body) (index : Nat)
    (delivers : target.DeliversMonad value) :
    delivery.Along value.exposed (Agreed FreeMonad)
      (applyFilter (.standard (watching call)) index target callback value)
      (applyFilter (.standard (watching (listing call))) index target callback
        (value.listed delivery.contents)) := by
  have tested : ∀ monad : Value F, FreeMonad monad → delivery.Along [] (Agreed FreeMonad)
      (monad.filter (.test target callback)
        (testItem (.standard (watching call)) target callback))
      (monad.filter (.test target callback)
        (testItem (.standard (watching (listing call))) target callback)) :=
    fun _ monad => along_filter _ (ordinary_testItem target callback)
      (fun _ free => fits.along_testItem judges free) monad
  simp only [applyFilter, requireMonadLike_of_deliversMonad delivers,
    requireMonadLike_listed delivers, pure_bind]
  cases sequence : target.hasSequence with
  | true =>
      have settles : ∀ item, Ordinary (watching call) (settle target item) := ordinary_settle target
      refine (along_map (.settle target) settles
        (fun _ delivered => along_settle delivered) delivers).bind (fun settled =>
          ((ordinary_requireMonadLike _ settled).bind fun _ =>
            Value.ordinary_filter _ (ordinary_testItem target callback) settled).grows) ?_
      rintro _ _ settled ⟨rfl, rfl, monad⟩
      rw [requireMonadLike_of_deliversMonad (monad.delivers target), pure_bind, pure_bind]
      exact tested settled monad
  | false =>
      have monad := freeMonad_of_not_hasSequence delivers sequence
      rw [Value.exposed_of_isFree value monad.free,
        Value.listed_of_isFree delivery.contents value monad.free]
      exact tested value monad

theorem Fits.along_applyDefinition (fits : delivery.Fits call)
    (defines : ∀ body, callback = .function body → delivery.usage.defines body added)
    (index : Nat) (delivers : target.DeliversMonad value) :
    delivery.Along value.exposed (Agreed FreeMonad)
      (applyDefinition (.standard (watching call)) index target added callback value)
      (applyDefinition (.standard (watching (listing call))) index target added callback
        (value.listed delivery.contents)) := by
  simp only [applyDefinition, requireMonadLike_of_deliversMonad delivers,
    requireMonadLike_listed delivers, pure_bind]
  exact along_map _ (ordinary_pairItem target added callback)
    (fun _ delivered => fits.along_pairItem defines delivered) delivers

/-- The qualifiers of a step leave its values such as its target delivers. -/
theorem Fits.along_applyQualifiers (fits : delivery.Fits call) (index : Nat)
    (qualifiers : List (Qualifier F))
    (judges : ∀ body, .filter (.function body) ∈ qualifiers → delivery.usage.judges body)
    (defines : ∀ added body, .define added (.function body) ∈ qualifiers →
      delivery.usage.defines body added)
    (delivers : target.DeliversMonad value) :
    delivery.Along value.exposed
      (Listed delivery.contents (qualifiers.foldl Qualifier.retarget target).DeliversMonad)
      (applyQualifiers (.standard (watching call)) index target qualifiers value)
      (applyQualifiers (.standard (watching (listing call))) index target qualifiers
        (value.listed delivery.contents)) := by
  induction qualifiers generalizing target value with
  | nil => exact along_pure ⟨rfl, rfl, delivers⟩
  | cons qualifier rest ih =>
      have later : ∀ {target : Target} {monad : Value F}, FreeMonad monad →
          delivery.Along []
            (Listed delivery.contents (rest.foldl Qualifier.retarget target).DeliversMonad)
            (applyQualifiers (.standard (watching call)) index target rest monad)
            (applyQualifiers (.standard (watching (listing call))) index target rest monad) := by
        intro target monad free
        have along := ih (fun body member => judges body (List.mem_cons_of_mem _ member))
          (fun added body member => defines added body (List.mem_cons_of_mem _ member))
          (free.delivers target)
        rwa [Value.exposed_of_isFree monad free.free,
          Value.listed_of_isFree delivery.contents monad free.free] at along
      cases qualifier with
      | filter predicate =>
          refine (fits.along_applyFilter (fun body same => judges body (by simp [same])) index
            delivers).bind (fun kept => (ordinary_applyQualifiers index target rest kept).grows) ?_
          rintro _ _ kept ⟨rfl, rfl, free⟩
          exact later free
      | define added thunk =>
          refine (fits.along_applyDefinition (fun body same => defines added body (by simp [same]))
            index delivers).bind
              (fun paired => (ordinary_applyQualifiers index _ rest paired).grows) ?_
          rintro _ _ paired ⟨rfl, rfl, free⟩
          exact later free

theorem Fits.along_generate (fits : delivery.Fits call) {step : Step F}
    (serves : step.Serves delivery.usage) (index : Nat) :
    delivery.Along [] (Listed delivery.contents step.target.DeliversMonad)
      (step.generate (.standard (watching call)) index)
      (step.generate (.standard (watching (listing call))) index) := by
  refine (fits.along_draw serves.source).bind (fun value =>
    (ordinary_applyQualifiers index step.ownTarget step.qualifiers value).grows) ?_
  rintro _ value _ ⟨rfl, rfl, delivers⟩
  exact fits.along_applyQualifiers index step.qualifiers serves.filters serves.definitions delivers

theorem along_currentStep {ref : StepRef} (listed : ref ∈ delivery.usage.refs) :
    delivery.Along [] (Agreed fun step => step.Serves delivery.usage ∧
        (delivery.usage.refs.getLast? = some ref → step.hasBlock = true))
      (currentStep ref) (currentStep ref) := by
  refine along_of_indifferent (indifferent_currentStep ref) (currentStep_preserves ref) ?_
  intro world ready
  rw [currentStep, ends_bind, ends_get]
  cases found : world.step? ref with
  | none => trivial
  | some step =>
      exact ⟨ready.steps ref listed step found, fun last => ready.block ref last step found⟩

theorem Fits.along_chainFrom (fits : delivery.Fits call) (front rest : List StepRef)
    (split : front ++ rest = delivery.usage.refs) (index : Nat) :
    delivery.Along [] (Agreed fun _ => True) (chainFrom (.standard (watching call)) rest index)
      (chainFrom (.standard (watching (listing call))) rest index) := by
  induction rest generalizing front index with
  | nil => exact along_throw _
  | cons ref rest ih =>
      have listed : ref ∈ delivery.usage.refs := by simp [← split]
      have finished : ∀ step now : Step F, ∀ index value, Ordinary (watching call)
          (finishValue (.standard (watching call)) step now rest index value) :=
        fun step now index value => ordinary_finishValue step now rest index value
      have required : ∀ step : Step F, ∀ value, Ordinary (watching call)
          (requireMonadLike index value >>= fun _ => currentStep ref >>= fun now =>
            finishValue (.standard (watching call)) step now rest index value) :=
        fun step value => (ordinary_requireMonadLike _ value).bind fun _ =>
          (ordinary_currentStep ref).bind fun now => finished step now index value
      rw [chainFrom_cons, chainFrom_cons]
      refine (along_currentStep listed).bind (fun step =>
        ((ordinary_generate _ step).bind fun value => required step value).grows) ?_
      rintro _ _ step ⟨rfl, rfl, serves, -⟩
      refine (fits.along_generate serves ref.position).bind (fun value =>
        (required step value).grows) ?_
      rintro _ value _ ⟨rfl, rfl, delivers⟩
      rw [requireMonadLike_of_deliversMonad delivers, requireMonadLike_listed delivers, pure_bind,
        pure_bind]
      refine (along_currentStep listed).bind_frame value.exposed
        (fun now => (finished step now index value).grows) ?_
      rintro _ _ now ⟨rfl, rfl, current, blocked⟩
      unfold finishValue
      split
      · refine (along_map _ (ordinary_concludeItem step.target now.block)
          (fun _ delivered => fits.along_concludeItem current.block delivered) delivers).mono ?_
        rintro left made other ⟨none_left, same, -⟩
        exact ⟨none_left, same, trivial⟩
      · next unblocked =>
        cases rest with
        | nil =>
            have last : delivery.usage.refs.getLast? = some ref := by simp [← split]
            exact absurd (blocked last) unblocked
        | cons next others =>
            have chained : ∀ index, Ordinary (watching call)
                (chainFrom (.standard (watching call)) (next :: others) index) :=
              ordinary_chainFrom (next :: others)
            refine along_flatMap _ (fun item =>
              (ordinary_settleAndDeposit step.target item).bind fun _ => chained (index + 1))
              (fun item delivered => ?_) delivers
            refine (along_settleAndDeposit delivered).bind (fun _ => (chained (index + 1)).grows) ?_
            rintro _ _ settled ⟨rfl, rfl, -⟩
            exact ih (front ++ [ref]) (by simp [split]) (index + 1)

theorem Fits.along_chainSteps (fits : delivery.Fits call) :
    delivery.Along [] (Agreed fun _ => True)
      (chainSteps (.standard (watching call)) delivery.usage.refs)
      (chainSteps (.standard (watching (listing call))) delivery.usage.refs) := by
  rw [chainSteps_eq_check, chainSteps_eq_check]
  have checked : delivery.Along (σ := σ) [] (Agreed fun _ => True)
      (checkStructure delivery.usage.refs) (checkStructure delivery.usage.refs) :=
    along_of_indifferent (indifferent_checkStructure _) (checkStructure_preserves _)
      fun _ _ => Ends.of_forall (fun _ _ => trivial) fun _ _ => trivial
  refine checked.bind (fun _ => (ordinary_chainFrom _ 0).grows) ?_
  rintro _ _ _ ⟨rfl, -, -⟩
  exact fits.along_chainFrom [] _ rfl 0

end Chain

end Delivery

/-- The items of an iterator are those that it has where it is given. -/
theorem exists_contents (visits : List (Visit F))
    (once : (visits.flatMap Visit.exposed).Nodup)
    (sound : ∀ visit ∈ visits, ∀ number ∈ visit.exposed, ∃ items,
      visit.supplies[number]? = some { items } ∧ Value.areFree items = true) :
    ∃ contents : Nat → List (Value F), ∀ visit ∈ visits, ∀ number ∈ visit.exposed,
      visit.supplies[number]? = some { items := contents number } ∧
        Value.areFree (contents number) = true := by
  induction visits with
  | nil => exact ⟨fun _ => [], by simp⟩
  | cons visit rest ih =>
      rw [List.flatMap_cons] at once
      rw [List.forall_mem_cons] at sound
      obtain ⟨-, onceLater, apart⟩ := List.nodup_append.mp once
      obtain ⟨later, known⟩ := ih onceLater sound.2
      refine ⟨fun number =>
        if number ∈ visit.exposed then contentsOf visit.supplies number else later number, ?_⟩
      rw [List.forall_mem_cons]
      refine ⟨fun number exposed => ?_, fun other member number exposed => ?_⟩
      · obtain ⟨items, present, free⟩ := sound.1 number exposed
        have same : contentsOf visit.supplies number = items := by rw [contentsOf, present]; rfl
        simp only [if_pos exposed, same]
        exact ⟨present, free⟩
      · have elsewhere : number ∉ visit.exposed := fun here =>
          apart number here number (List.mem_flatMap.mpr ⟨other, member, exposed⟩) rfl
        simp only [if_neg elsewhere]
        exact known other member number exposed

/-- Where iterators are delivered to sequences, lists of their items in their place change nothing.
The result is the same, and so is the end state but for what iterators have left. The same functions
are called in the same order, and each is given the same argument and finds the same in all
targets. -/
theorem chainSteps_listing {usage : Usage F σ}
    {call : F → Option (Value F) → Action F σ (Value F)} (blind : Blind usage call)
    {start : World F σ} (ready : start.Ready usage) :
    let one := (chainSteps (.standard (watching call)) usage.refs).outcome (start.withLog [])
    let two :=
      (chainSteps (.standard (watching (listing call))) usage.refs).outcome (start.withLog [])
    Delivered usage one.2.log →
      two.1 = one.1 ∧
        two.2.withoutLog = { one.2.withoutLog with supplies := two.2.supplies } ∧
        two.2.log.map Visit.seen = one.2.log.map Visit.seen := by
  intro one two delivered
  obtain ⟨contents, known⟩ := exists_contents one.2.log delivered.once delivered.sound
  let delivery : Delivery F σ := { usage, visits := one.2.log, contents }
  have fits : delivery.Fits call := ⟨blind, delivered, known⟩
  have ended := fits.along_chainSteps [] _ _ (Delivery.Parallel.start ready) List.prefix_rfl
  rcases ended.exists_ends with
    ⟨_, after, value, last, first, second, _, ⟨rfl, rfl, -⟩, reached⟩ |
    ⟨_, after, error, last, first, second, rfl, reached⟩
  · rw [show one = (.ok value, after) from first, show two = (.ok value, last) from second]
    exact ⟨rfl, reached.withoutLog_eq, reached.seen⟩
  · rw [show one = (.error error, after) from first, show two = (.error error, last) from second]
    exact ⟨rfl, reached.withoutLog_eq, reached.seen⟩

/-- The functions of a description whose source gives two iterators. A third is defined for each of
them, between two tests. -/
inductive Role where
  | source
  | predicate
  | thunk
  | block

/-- Each call of the source and of the definition makes its iterators. The block gives what the two
sequences hold. -/
def roleCall : Role → Option (Value Role) → Action Role Unit (Value Role)
  | .source, _ => do
      let first := (← get).supplies.length
      let made : List (Supply Role) := [{ items := [.int 1, .int 2] }, { items := [.int 3] }]
      modify fun world => { world with supplies := world.supplies ++ made }
      return .listMonad none false [.iterator first, .iterator (first + 1)]
  | .predicate, _ => return .bool true
  | .thunk, _ => do
      let number := (← get).supplies.length
      let made : List (Supply Role) := [{ items := [.int 7] }]
      modify fun world => { world with supplies := world.supplies ++ made }
      return .iterator number
  | .block, _ => do
      let world ← get
      return .list [.list (world.sequence "xs"), .list (world.sequence "ys")]

def roleUsage : Usage Role Unit where
  draws role target := role = .source ∧ target = .sequence "xs" none
  defines role target := role = .thunk ∧ target = .sequence "ys" none
  judges role := role = .predicate ∨ role = .block
  refs := [⟨0, 0⟩]
  sane _ := True

def roleStep : Step Role where
  ownTarget := .sequence "xs" none
  source := .function .source
  qualifiers :=
    [.filter (.function .predicate), .define (.sequence "ys" none) (.function .thunk),
      .filter (.function .predicate)]
  block := .function .block

def roleWorld : World Role Unit :=
  { contexts := [[roleStep]], client := () }

theorem blind_roleCall : Blind roleUsage roleCall := by
  intro role argument world ready _
  cases role with
  | source =>
      refine ⟨.ok (.listMonad none false
        [.iterator world.supplies.length, .iterator (world.supplies.length + 1)]),
        [{ items := [.int 1, .int 2] }, { items := [.int 3] }], world, ready, ?_⟩
      intro supplies length
      rw [← length]
      rfl
  | predicate =>
      refine ⟨.ok (.bool true), [], world, ready, fun supplies _ => ?_⟩
      rw [List.append_nil]
      rfl
  | thunk =>
      refine ⟨.ok (.iterator world.supplies.length), [{ items := [.int 7] }], world, ready, ?_⟩
      intro supplies length
      rw [← length]
      rfl
  | block =>
      refine ⟨.ok (.list [.list (world.sequence "xs"), .list (world.sequence "ys")]), [], world,
        ready, fun supplies _ => ?_⟩
      rw [List.append_nil]
      rfl

theorem ready_roleWorld : roleWorld.Ready roleUsage where
  steps ref listed step found := by
    obtain rfl : ref = ⟨0, 0⟩ := by simpa [roleUsage] using listed
    cases (show some roleStep = some step from found)
    constructor <;> simp [roleUsage, roleStep]
  block ref last step found := by
    obtain rfl : ref = ⟨0, 0⟩ := by simpa [roleUsage] using last.symm
    cases (show some roleStep = some step from found)
    rfl
  sane := trivial
  clear := ⟨fun _ => rfl, fun _ => rfl, fun _ => rfl⟩

/-- Whether a call gives what its role asks for. -/
def Role.admits (visit : Visit Role) : Bool :=
  (visit.exposed.all fun number =>
    match visit.supplies[number]? with
    | some { items, failure := none } => Value.areFree items
    | _ => false) &&
  match visit.body, visit.answer with
  | .source, .ok (.listMonad _ _ items) => items.all (fun item => (item matches .iterator _))
  | .thunk, .ok (.iterator _) => true
  | .predicate, .ok value | .block, .ok value => value.isFree
  | _, _ => false

theorem delivered_of_admits {visits : List (Visit Role)}
    (once : (visits.flatMap Visit.exposed).Nodup) (admitted : visits.all Role.admits = true) :
    Delivered roleUsage visits := by
  simp only [List.all_eq_true, Role.admits, Bool.and_eq_true] at admitted
  refine ⟨once, ?_, ?_, ?_, ?_⟩
  · intro visit member number exposed
    have present := (admitted visit member).1 number exposed
    split at present
    · next items found => exact ⟨items, found, present⟩
    · cases present
  · intro visit member value target answered drawn
    obtain ⟨role, rfl⟩ := drawn
    have kind := (admitted visit member).2
    rw [role, answered] at kind
    cases value with
    | listMonad number traced items =>
        simp only [List.all_eq_true] at kind
        intro item listed
        have iterator := kind item listed
        cases item with
        | iterator number => trivial
        | _ => cases iterator
    | _ => cases kind
  · intro visit member value target answered defined
    obtain ⟨role, rfl⟩ := defined
    have kind := (admitted visit member).2
    rw [role, answered] at kind
    cases value with
    | iterator number => trivial
    | _ => cases kind
  · intro visit member value answered judge
    have kind := (admitted visit member).2
    rcases judge with role | role <;> rwa [role, answered] at kind

def Role.reads? (visit : Visit Role) : Option (List Int × List Int) :=
  match visit.body, visit.answer with
  | .block, .ok (.list [.list xs, .list ys]) =>
      some (xs.filterMap Value.int?, ys.filterMap Value.int?)
  | _, _ => none

/-- For each of the two iterators of the source, the block reads its items and those of the one that
was defined for it. -/
theorem chainSteps_listing_roles :
    let one := (chainSteps (.standard (watching roleCall)) [⟨0, 0⟩]).outcome (roleWorld.withLog [])
    let two := (chainSteps (.standard (watching (listing roleCall))) [⟨0, 0⟩]).outcome
      (roleWorld.withLog [])
    one.1.isOk = true ∧ one.2.log.length = 9 ∧ one.2.log.flatMap Visit.exposed = [0, 1, 2, 3] ∧
      one.2.log.filterMap Role.reads? = [([1, 2], [7]), ([3], [7])] ∧
      two.1 = one.1 ∧ two.2.log.map Visit.seen = one.2.log.map Visit.seen := by
  intro one two
  have made : one.1.isOk = true ∧ one.2.log.length = 9 := by decide +kernel
  have given : one.2.log.flatMap Visit.exposed = [0, 1, 2, 3] := by decide +kernel
  have read : one.2.log.filterMap Role.reads? = [([1, 2], [7]), ([3], [7])] := by decide +kernel
  have admitted : one.2.log.all Role.admits = true := by decide +kernel
  have delivered := delivered_of_admits (by rw [given]; decide) admitted
  obtain ⟨same, -, seen⟩ := chainSteps_listing blind_roleCall ready_roleWorld delivered
  exact ⟨made.1, made.2, given, read, same, seen⟩

end Bindery
