import Bindery.Proofs.Agreement
import Bindery.Proofs.Calls
import Bindery.Proofs.Iterators
import Bindery.Proofs.Preservation

set_option autoImplicit false

namespace Bindery

open Bindery.Action

variable {F σ α β : Type}

/-- A call of a function: its argument, what targets held then, what it gave, and what iterators
had left when it ended. -/
structure Visit (F : Type) where
  body : F
  argument : Option (Value F)
  slots : Table (Value F)
  sequences : Table (List (Value F))
  received : Table (List (Value F))
  answer : Except Error (Value F)
  supplies : List (Supply F)

namespace Visit

def seen (visit : Visit F) :
    F × Option (Value F) × Table (Value F) × Table (List (Value F)) × Table (List (Value F)) :=
  (visit.body, visit.argument, visit.slots, visit.sequences, visit.received)

/-- The iterators that are given. -/
def exposed (visit : Visit F) : List Nat :=
  match visit.answer with
  | .ok value => value.exposed
  | .error _ => []

end Visit

def World.visit (world : World F σ) (body : F) (argument : Option (Value F))
    (answer : Except Error (Value F)) (supplies : List (Supply F)) : Visit F :=
  { body, argument, answer, supplies
    slots := world.slots
    sequences := world.sequences
    received := world.received }

def watching (call : F → Option (Value F) → Action F σ (Value F)) :
    F → Option (Value F) → Action F (σ × List (Visit F)) (Value F) :=
  fun body argument world =>
    let (answer, after) := (call body argument).outcome world.withoutLog
    (answer, after.withLog (world.log ++ [world.visit body argument answer after.supplies]))

theorem outcome_watching (call : F → Option (Value F) → Action F σ (Value F)) (body : F)
    (argument : Option (Value F)) {world : World F (σ × List (Visit F))}
    {answer : Except Error (Value F)} {after : World F σ}
    (called : (call body argument).outcome world.withoutLog = (answer, after)) :
    (watching call body argument).outcome world =
      (answer, after.withLog
        (world.log ++ [world.visit body argument answer after.supplies])) := by
  simp only [watching, outcome, ExceptT.run] at called ⊢
  rw [called]

def Grows (action : Action F (σ × List (Visit F)) α) : Prop :=
  ∀ earlier : List (Visit F), Preserves (fun world => earlier <+: world.log) action

theorem grows_pure (value : α) : Grows (pure value : Action F (σ × List (Visit F)) α) :=
  fun _ => preserves_pure value

theorem Ordinary.grows {call : F → Option (Value F) → Action F σ (Value F)}
    {action : Action F (σ × List (Visit F)) α}
    (ordinary : Ordinary (watching call) action) : Grows action :=
  fun _ => ordinary _ (fun _ _ _ _ _ _ begun => begun) fun _ _ =>
    Preserves.of_outcome fun _ begun => begun.trans (List.prefix_append _ _)

def contentsOf (supplies : List (Supply F)) (number : Nat) : List (Value F) :=
  (supplies[number]?.map Supply.items).getD []

/-- Functions that give a list of its items for each iterator. -/
def listing (call : F → Option (Value F) → Action F σ (Value F)) :
    F → Option (Value F) → Action F σ (Value F) :=
  fun body argument => do
    let value ← call body argument
    let world ← get
    return value.listed (contentsOf world.supplies)

theorem outcome_listing (call : F → Option (Value F) → Action F σ (Value F)) (body : F)
    (argument : Option (Value F)) {world : World F σ} {answer : Except Error (Value F)}
    {after : World F σ} (called : (call body argument).outcome world = (answer, after)) :
    (listing call body argument).outcome world =
      (answer.map (Value.listed (contentsOf after.supplies)), after) := by
  rw [listing, outcome_bind, called]
  cases answer <;> rfl

/-- How the functions of a description are used: for which targets they draw or define values, and
which of them judge items, that is test them or make results of them. `refs` are the steps that are
chained, and `sane` says what functions can rely on in what they keep. -/
structure Usage (F σ : Type) where
  draws : F → Target → Prop
  defines : F → Target → Prop
  judges : F → Prop
  refs : List StepRef
  sane : σ → Prop

/-- The functions of a step are used as is meant. -/
structure Step.Serves (step : Step F) (usage : Usage F σ) : Prop where
  source : ∀ body, step.source = .function body → usage.draws body step.ownTarget
  filters : ∀ body, .filter (.function body) ∈ step.qualifiers → usage.judges body
  definitions : ∀ target body, .define target (.function body) ∈ step.qualifiers →
    usage.defines body target
  block : ∀ body, step.block = .function body → usage.judges body

/-- A state that a run may come to: the functions of its steps are used as is meant, the last step
has a block of results, and no target holds an iterator. -/
structure World.Ready (world : World F σ) (usage : Usage F σ) : Prop where
  steps : ∀ ref ∈ usage.refs, ∀ step, world.step? ref = some step → step.Serves usage
  block : ∀ ref, usage.refs.getLast? = some ref → ∀ step, world.step? ref = some step →
    step.hasBlock = true
  sane : usage.sane world.client
  clear : world.Clear

theorem World.Ready.aside {world : World F σ} {usage : Usage F σ} (ready : world.Ready usage)
    (supplies : List (Supply F)) (events : List Event) :
    ({ world with supplies, events } : World F σ).Ready usage :=
  ⟨ready.steps, ready.block, ready.sane, ready.clear.slot, ready.clear.sequence,
    ready.clear.received⟩

/-- Functions that cannot reach the iterators that there are, and that leave none in a target. They
may make new ones. -/
def Blind (usage : Usage F σ) (call : F → Option (Value F) → Action F σ (Value F)) : Prop :=
  ∀ body argument (world : World F σ), world.Ready usage → argument.all Value.isFree = true →
    ∃ answer added, ∃ after : World F σ, after.Ready usage ∧
      ∀ supplies : List (Supply F), supplies.length = world.supplies.length →
        (call body argument).outcome { world with supplies } =
          (answer, { after with supplies := supplies ++ added })

/-- Each iterator is given once and does not fail, and it is given only where the target sends it to
a sequence. Sources give eager monads. -/
structure Delivered (usage : Usage F σ) (visits : List (Visit F)) : Prop where
  once : (visits.flatMap Visit.exposed).Nodup
  sound : ∀ visit ∈ visits, ∀ number ∈ visit.exposed, ∃ items,
    visit.supplies[number]? = some { items } ∧ Value.areFree items = true
  draws : ∀ visit ∈ visits, ∀ value target, visit.answer = .ok value →
    usage.draws visit.body target → target.DeliversMonad value
  defines : ∀ visit ∈ visits, ∀ value target, visit.answer = .ok value →
    usage.defines visit.body target → target.Delivers value
  judges : ∀ visit ∈ visits, ∀ value, visit.answer = .ok value → usage.judges visit.body →
    value.isFree = true

/-- A run that is watched: how functions are used, the calls that the run makes, and the items of
each iterator. -/
structure Delivery (F σ : Type) where
  usage : Usage F σ
  visits : List (Visit F)
  contents : Nat → List (Value F)

namespace Delivery

/-- The functions of the run are blind, and what they give is delivered. -/
structure Fits (delivery : Delivery F σ) (call : F → Option (Value F) → Action F σ (Value F)) :
    Prop where
  blind : Blind delivery.usage call
  delivered : Delivered delivery.usage delivery.visits
  known : ∀ visit ∈ delivery.visits, ∀ number ∈ visit.exposed,
    visit.supplies[number]? = some { items := delivery.contents number } ∧
      Value.areFree (delivery.contents number) = true

/-- Two states of the two runs. They differ in what iterators have left, and in the notes of what
functions gave. An iterator that was given is drained in the first run only, unless it is pending:
it was given, and it is still to be drained. -/
structure Parallel (delivery : Delivery F σ) (pending : List Nat)
    (one two : World F (σ × List (Visit F))) : Prop where
  same : two = { one with supplies := two.supplies, client := two.client }
  client : two.client.1 = one.client.1
  seen : two.log.map Visit.seen = one.log.map Visit.seen
  length : two.supplies.length = one.supplies.length
  intact : ∀ number, number ∉ one.log.flatMap Visit.exposed →
    two.supplies[number]? = one.supplies[number]?
  holds : ∀ number ∈ pending, one.supplies[number]? = some { items := delivery.contents number } ∧
    two.supplies[number]? = some { items := delivery.contents number } ∧
    Value.areFree (delivery.contents number) = true
  given : ∀ number ∈ pending, number ∈ one.log.flatMap Visit.exposed
  distinct : pending.Nodup
  ready : one.withoutLog.Ready delivery.usage

/-- Two actions go along with each other, as long as the first run makes the calls that it is known
to make. From two such states with some iterators to be drained, they end in two such states, with
results that are related, given the iterators that are then left to be drained, or with one error.
-/
def Along (delivery : Delivery F σ) (taken : List Nat) (relation : List Nat → α → α → Prop)
    (first second : Action F (σ × List (Visit F)) α) : Prop :=
  ∀ pending one two, delivery.Parallel (taken ++ pending) one two →
    (first.outcome one).2.log <+: delivery.visits →
      Together first second one two
        (fun value after other last => ∃ left, relation left value other ∧
          delivery.Parallel (left ++ pending) after last)
        fun error after other last => other = error ∧ delivery.Parallel pending after last

def Agreed (such : α → Prop) (left : List Nat) (value other : α) : Prop :=
  left = [] ∧ other = value ∧ such value

variable {delivery : Delivery F σ} {taken : List Nat} {relation : List Nat → α → α → Prop}
  {one two : World F (σ × List (Visit F))}

theorem Parallel.start {world : World F σ} (ready : world.Ready delivery.usage) :
    delivery.Parallel [] (world.withLog []) (world.withLog []) where
  same := rfl
  client := rfl
  seen := rfl
  length := rfl
  intact _ _ := rfl
  holds _ pends := absurd pends List.not_mem_nil
  given _ pends := absurd pends List.not_mem_nil
  distinct := List.nodup_nil
  ready := ready

theorem Parallel.withoutLog_eq {pending : List Nat} (parallel : delivery.Parallel pending one two) :
    two.withoutLog = { one.withoutLog with supplies := two.supplies } := by
  rw [parallel.same]
  simp only [World.withoutLog, parallel.client]

theorem Parallel.of_append {pending : List Nat}
    (parallel : delivery.Parallel (taken ++ pending) one two) :
    delivery.Parallel pending one two :=
  { parallel with
    holds := fun number member => parallel.holds number (List.mem_append_right _ member)
    given := fun number member => parallel.given number (List.mem_append_right _ member)
    distinct := (List.nodup_append.mp parallel.distinct).2.1 }

theorem along_pure {value other : α} (related : relation taken value other) :
    delivery.Along taken relation (pure value) (pure other) :=
  fun _ _ _ parallel _ => ⟨taken, related, parallel⟩

theorem along_throw (error : Error) :
    delivery.Along taken relation (throw error) (throw error) :=
  fun _ _ _ parallel _ => ⟨rfl, parallel.of_append⟩

theorem Along.mono {first second : Action F (σ × List (Visit F)) α}
    {weaker : List Nat → α → α → Prop} (along : delivery.Along taken relation first second)
    (weaken : ∀ left value other, relation left value other → weaker left value other) :
    delivery.Along taken weaker first second := by
  intro pending one two parallel within
  refine (along pending one two parallel within).mono ?_ fun _ _ _ _ failed => failed
  rintro value after other last ⟨left, related, kept⟩
  exact ⟨left, weaken left value other related, kept⟩

variable {call : F → Option (Value F) → Action F σ (Value F)}

/-- The second action goes on with what the first has left, and with what it was to leave alone. -/
theorem Along.bind_frame {first second : Action F (σ × List (Visit F)) α}
    {next nextSecond : α → Action F (σ × List (Visit F)) β} {result : List Nat → β → β → Prop}
    (more : List Nat) (along : delivery.Along taken relation first second)
    (later : ∀ value, Grows (next value))
    (rest : ∀ left value other, relation left value other →
      delivery.Along (left ++ more) result (next value) (nextSecond other)) :
    delivery.Along (taken ++ more) result (first >>= next) (second >>= nextSecond) := by
  intro pending one two parallel within
  rw [List.append_assoc] at parallel
  have reached : (first.outcome one).2.log <+: delivery.visits := by
    rw [outcome_bind] at within
    rcases ended : first.outcome one with ⟨error | value, after⟩
    · rwa [ended] at within
    · rw [ended] at within
      exact ((later value after.log).outcome List.prefix_rfl).trans within
  rcases (along (more ++ pending) one two parallel reached).exists_ends with
    ⟨value, after, other, last, ended, endedSecond, left, related, kept⟩ |
    ⟨error, after, other, last, ended, endedSecond, same, kept⟩
  · rw [← List.append_assoc] at kept
    rw [outcome_bind, ended] at within
    refine (rest left value other related pending after last kept within).of_outcome_eq ?_ ?_
    · rw [outcome_bind, ended]
    · rw [outcome_bind, endedSecond]
  · refine together_of_error ?_ ?_ ⟨same, kept.of_append⟩
    · rw [outcome_bind, ended]
    · rw [outcome_bind, endedSecond]

theorem Along.bind {first second : Action F (σ × List (Visit F)) α}
    {next nextSecond : α → Action F (σ × List (Visit F)) β} {result : List Nat → β → β → Prop}
    (along : delivery.Along taken relation first second)
    (later : ∀ value, Grows (next value))
    (rest : ∀ left value other, relation left value other →
      delivery.Along left result (next value) (nextSecond other)) :
    delivery.Along taken result (first >>= next) (second >>= nextSecond) := by
  have framed : delivery.Along (taken ++ []) result (first >>= next) (second >>= nextSecond) :=
    along.bind_frame [] later fun left value other related => by
      rw [List.append_nil]
      exact rest left value other related
  rwa [List.append_nil] at framed

theorem Along.bind_pure {first second : Action F (σ × List (Visit F)) α} {make : α → β}
    {result : List Nat → β → β → Prop} (along : delivery.Along taken relation first second)
    (related : ∀ left value other, relation left value other →
      result left (make value) (make other)) :
    delivery.Along taken result (first >>= fun value => pure (make value))
      (second >>= fun other => pure (make other)) :=
  along.bind (fun _ => grows_pure _) fun left value other held =>
    along_pure (related left value other held)

theorem ready_deposit (usage : Usage F σ) (target : Target) {value : Value F}
    (free : value.isFree = true) :
    Preserves (fun world : World F (σ × List (Visit F)) => world.withoutLog.Ready usage)
      (deposit target value) := by
  refine Preserves.of_outcome fun world ready => ?_
  have clear := (clear_deposit target value free).outcome
    (show world.Clear from ⟨ready.clear.slot, ready.clear.sequence, ready.clear.received⟩)
  have served : IgnoresTargets fun reached : World F (σ × List (Visit F)) =>
      (∀ ref, reached.step? ref = world.step? ref) ∧ reached.client = world.client :=
    fun _ _ _ _ _ _ same => same
  obtain ⟨same, client⟩ := (deposit_preserves served target value).outcome ⟨fun _ => rfl, rfl⟩
  have sane : usage.sane ((deposit target value).outcome world).2.client.1 := by
    rw [client]
    exact ready.sane
  exact ⟨fun ref listed step found => ready.steps ref listed step ((same ref).symm.trans found),
    fun ref last step found => ready.block ref last step ((same ref).symm.trans found), sane,
    clear.slot, clear.sequence, clear.received⟩

theorem Parallel.moved {pending : List Nat} (parallel : delivery.Parallel pending one two)
    {after : World F (σ × List (Visit F))} (supplies : after.supplies = one.supplies)
    (client : after.client = one.client) (ready : after.withoutLog.Ready delivery.usage) :
    delivery.Parallel pending after
      { after with supplies := two.supplies, client := two.client } := by
  have log : after.log = one.log := congrArg Prod.snd client
  exact
    { same := rfl
      client := parallel.client.trans (congrArg Prod.fst client).symm
      seen := parallel.seen.trans (by rw [log])
      length := parallel.length.trans (by rw [supplies])
      intact := by
        rw [log, supplies]
        exact parallel.intact
      holds := by
        rw [supplies]
        exact parallel.holds
      given := by
        rw [log]
        exact parallel.given
      distinct := parallel.distinct
      ready }

theorem along_of_indifferent {action : Action F (σ × List (Visit F)) α}
    (indifferent : Indifferent action)
    (keeps : Preserves (fun world => world.withoutLog.Ready delivery.usage) action)
    {such : α → Prop}
    (ends : ∀ world, world.withoutLog.Ready delivery.usage →
      action.Ends world (fun value _ => such value) fun _ _ => True) :
    delivery.Along [] (Agreed such) action action := by
  intro pending one two parallel _
  have moved := indifferent one two.supplies two.client
  rw [← parallel.same] at moved
  have unmoved := indifferent one one.supplies one.client
  have reached := parallel.moved (congrArg (·.2.supplies) unmoved) (congrArg (·.2.client) unmoved)
    (keeps.outcome parallel.ready)
  have found := ends one parallel.ready
  unfold Ends at found
  rcases ended : action.outcome one with ⟨error | value, after⟩ <;>
    rw [ended] at moved reached found
  · exact together_of_error ended moved ⟨rfl, reached⟩
  · exact together_of_ok ended moved ⟨[], ⟨rfl, rfl, found⟩, reached⟩

/-- A call that both runs make. What it gives is pending from then on. -/
theorem Fits.parallel_visited (fits : delivery.Fits call) {pending : List Nat}
    (parallel : delivery.Parallel pending one two) {visit note : Visit F} {after : World F σ}
    {added : List (Supply F)} (within : one.log ++ [visit] <+: delivery.visits)
    (supplied : visit.supplies = one.supplies ++ added) (alike : note.seen = visit.seen)
    (ready : after.Ready delivery.usage) :
    delivery.Parallel (visit.exposed ++ pending)
      (World.withLog { after with supplies := one.supplies ++ added } (one.log ++ [visit]))
      (World.withLog { after with supplies := two.supplies ++ added } (two.log ++ [note])) := by
  have member : visit ∈ delivery.visits := within.subset (by simp)
  have once : (one.log.flatMap Visit.exposed ++ visit.exposed).Nodup := by
    obtain ⟨rest, whole⟩ := within
    have every := fits.delivered.once
    rw [← whole, List.flatMap_append] at every
    rw [List.flatMap_append, List.flatMap_singleton] at every
    exact (List.nodup_append.mp every).1
  obtain ⟨-, distinct, apart⟩ := List.nodup_append.mp once
  have extended : ∀ number : Nat, two.supplies[number]? = one.supplies[number]? →
      (two.supplies ++ added)[number]? = (one.supplies ++ added)[number]? := by
    intro number same
    rw [List.getElem?_append, List.getElem?_append, same, parallel.length]
  have noted : ∀ number ∈ one.log.flatMap Visit.exposed ++ visit.exposed,
      number ∈ (one.log ++ [visit]).flatMap Visit.exposed := by
    intro number exposed
    rwa [List.flatMap_append, List.flatMap_singleton]
  refine ⟨rfl, rfl, ?_, ?_, ?_, ?_, ?_, ?_, ready.aside _ _⟩
  · change (two.log ++ [note]).map Visit.seen = (one.log ++ [visit]).map Visit.seen
    rw [List.map_append, List.map_append, parallel.seen, List.map_singleton, List.map_singleton,
      alike]
  · change (two.supplies ++ added).length = (one.supplies ++ added).length
    rw [List.length_append, List.length_append, parallel.length]
  · intro number absent
    exact extended number (parallel.intact number fun earlier =>
      absent (noted number (List.mem_append_left _ earlier)))
  · intro number pends
    rcases List.mem_append.mp pends with fresh | older
    · obtain ⟨present, free⟩ := fits.known visit member number fresh
      rw [supplied] at present
      have same := parallel.intact number fun earlier => apart number earlier number fresh rfl
      exact ⟨present, (extended number same).trans present, free⟩
    · obtain ⟨first, second, free⟩ := parallel.holds number older
      have below := (List.getElem?_eq_some_iff.mp first).1
      have belowSecond := (List.getElem?_eq_some_iff.mp second).1
      refine ⟨?_, ?_, free⟩
      · exact (List.getElem?_append_left below).trans first
      · exact (List.getElem?_append_left belowSecond).trans second
  · intro number pends
    refine noted number ?_
    rcases List.mem_append.mp pends with fresh | older
    · exact List.mem_append_right _ fresh
    · exact List.mem_append_left _ (parallel.given number older)
  · refine List.nodup_append.mpr ⟨distinct, parallel.distinct, ?_⟩
    intro number fresh other older same
    subst same
    exact apart number (parallel.given number older) number fresh rfl

theorem Fits.along_call (fits : delivery.Fits call) (callback : Callback F)
    {argument : Option (Value F)} (free : argument.all Value.isFree = true) :
    delivery.Along []
      (fun left value other => left = value.exposed ∧ other = value.listed delivery.contents ∧
        ∃ visit ∈ delivery.visits, callback = .function visit.body ∧ visit.answer = .ok value)
      (callback.call (.standard (watching call)) argument)
      (callback.call (.standard (watching (listing call))) argument) := by
  cases callback with
  | object type => exact along_throw _
  | function body =>
      intro pending one two parallel within
      obtain ⟨answer, added, after, ready, called⟩ :=
        fits.blind body argument one.withoutLog parallel.ready free
      have first := outcome_watching call body argument (called one.supplies rfl)
      have secondCalled := called two.supplies parallel.length
      rw [← parallel.withoutLog_eq] at secondCalled
      have second := outcome_watching (listing call) body argument
        (outcome_listing call body argument secondCalled)
      change (watching call body argument).outcome one = _ at first
      change ((watching call body argument).outcome one).2.log <+: _ at within
      rw [first] at within
      have alike : ∀ answers supplies, (two.visit body argument answers supplies).seen =
          (one.visit body argument answer (one.supplies ++ added)).seen := by
        rw [parallel.same]
        exact fun _ _ => rfl
      have reached := fits.parallel_visited parallel within rfl (alike (answer.map (Value.listed
        (contentsOf (two.supplies ++ added)))) (two.supplies ++ added)) ready
      cases answer with
      | error error => exact together_of_error first second ⟨rfl, reached⟩
      | ok value =>
          refine together_of_ok first second ⟨value.exposed, ⟨rfl, ?_, _, within.subset
            (List.mem_append_right _ (List.mem_singleton_self _)), rfl, rfl⟩, reached⟩
          refine Value.listed_congr value fun number exposed => ?_
          have present := (reached.holds number (List.mem_append_left _ exposed)).2.1
          change (two.supplies ++ added)[number]? = _ at present
          rw [contentsOf, present]
          rfl

/-- One result, of which the second run has lists where the first has iterators. -/
def Listed (contents : Nat → List (Value F)) (such : Value F → Prop) (left : List Nat)
    (value other : Value F) : Prop :=
  left = value.exposed ∧ other = value.listed contents ∧ such value

theorem agreed_of_listed {contents : Nat → List (Value F)} {left : List Nat}
    {value other : Value F} {such : Value F → Prop} (listed : Listed contents such left value other)
    (free : value.isFree = true) : Agreed such left value other :=
  ⟨listed.1.trans (Value.exposed_of_isFree value free),
    listed.2.1.trans (Value.listed_of_isFree contents value free), listed.2.2⟩

section Callbacks

variable {callback : Callback F} {target : Target}

theorem Fits.along_judge (fits : delivery.Fits call)
    (judges : ∀ body, callback = .function body → delivery.usage.judges body)
    (argument : Option (Value F)) (argumentFree : argument.all Value.isFree = true) :
    delivery.Along [] (Agreed fun value => value.isFree = true)
      (callback.call (.standard (watching call)) argument)
      (callback.call (.standard (watching (listing call))) argument) := by
  refine (fits.along_call callback argumentFree).mono ?_
  rintro left value other ⟨exposed, listed, visit, member, called, answered⟩
  have free := fits.delivered.judges visit member value answered (judges visit.body called)
  exact agreed_of_listed ⟨exposed, listed, free⟩ free

theorem Fits.along_define (fits : delivery.Fits call)
    (defines : ∀ body, callback = .function body → delivery.usage.defines body target) :
    delivery.Along [] (Listed delivery.contents target.Delivers)
      (callback.call (.standard (watching call)) none)
      (callback.call (.standard (watching (listing call))) none) := by
  refine (fits.along_call callback rfl).mono ?_
  rintro left value other ⟨exposed, listed, visit, member, called, answered⟩
  exact ⟨exposed, listed,
    fits.delivered.defines visit member value target answered (defines visit.body called)⟩

theorem Fits.along_draw (fits : delivery.Fits call)
    (draws : ∀ body, callback = .function body → delivery.usage.draws body target) :
    delivery.Along [] (Listed delivery.contents target.DeliversMonad)
      (callback.call (.standard (watching call)) none)
      (callback.call (.standard (watching (listing call))) none) := by
  refine (fits.along_call callback rfl).mono ?_
  rintro left value other ⟨exposed, listed, visit, member, called, answered⟩
  exact ⟨exposed, listed,
    fits.delivered.draws visit member value target answered (draws visit.body called)⟩

end Callbacks

theorem Parallel.drained {pending : List Nat}
    (parallel : delivery.Parallel (taken ++ pending) one two) :
    delivery.Parallel pending (one.drained taken) two := by
  obtain ⟨-, distinct, apart⟩ := List.nodup_append.mp parallel.distinct
  refine ⟨parallel.same, parallel.client, parallel.seen, ?_, ?_, ?_, ?_, distinct,
    parallel.ready.aside _ _⟩
  · rw [World.length_supplies_drained, parallel.length]
  · intro number absent
    rw [World.supplies_drained_of_not_mem one fun drained =>
      absent (parallel.given number (List.mem_append_left _ drained))]
    exact parallel.intact number absent
  · intro number pends
    rw [World.supplies_drained_of_not_mem one fun drained => apart number drained number pends rfl]
    exact parallel.holds number (List.mem_append_right _ pends)
  · exact fun number pends => parallel.given number (List.mem_append_right _ pends)

/-- Settling drains in the first run what is a list in the second. -/
theorem along_settle {target : Target} {value : Value F} (delivers : target.Delivers value) :
    delivery.Along value.exposed (Agreed fun settled => settled.isFree = true)
      (settle target value) (settle target (value.listed delivery.contents)) := by
  intro pending one two parallel _
  have holds : ∀ number ∈ value.exposed, _ := fun number exposed =>
    parallel.holds number (List.mem_append_left _ exposed)
  obtain ⟨settled, free, listed, drained⟩ := exists_settlesTo (σ := σ × List (Visit F))
    delivery.contents target value delivers fun number exposed => (holds number exposed).2.2
  have settledOne := drained one (List.nodup_append.mp parallel.distinct).1
    fun number exposed => (holds number exposed).1
  exact together_of_ok settledOne (listed two) ⟨[], ⟨rfl, rfl, free⟩, parallel.drained⟩

theorem along_deposit (target : Target) {value : Value F} (free : value.isFree = true) :
    delivery.Along [] (Agreed fun _ => True) (deposit target value) (deposit target value) :=
  along_of_indifferent (indifferent_deposit target value free) (ready_deposit _ target free)
    fun _ _ => Ends.of_forall (fun _ _ => trivial) fun _ _ => trivial

theorem along_settleAndDeposit {target : Target} {value : Value F}
    (delivers : target.Delivers value) :
    delivery.Along value.exposed (Agreed fun settled => settled.isFree = true)
      (settleAndDeposit target value)
      (settleAndDeposit target (value.listed delivery.contents)) := by
  refine (along_settle delivers).bind (fun settled _ =>
    (deposit_preserves (fun _ _ _ _ _ _ begun => begun) target settled).bind fun _ =>
      preserves_pure _) ?_
  rintro _ _ settled ⟨rfl, rfl, free⟩
  refine (along_deposit target free).bind_pure ?_
  rintro _ _ _ ⟨rfl, -, -⟩
  exact ⟨rfl, rfl, free⟩

end Delivery

end Bindery
