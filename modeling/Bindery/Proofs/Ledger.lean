import Bindery.Proofs.Settling
import Bindery.Proofs.Transcript

set_option autoImplicit false

namespace Bindery

open Bindery.Action

variable {F σ : Type} {key : String}

namespace Target

/-- The values that an external target is sent when a value is deposited, in order. -/
def sentTo (target : Target) (key : String) (value : Value F) : List (Value F) :=
  (target.arrivals value).filterMap (Arrival.sentTo? key)

theorem sentTo_of_absent {target : Target} (absent : .external key ∉ target.cells)
    (value : Value F) : target.sentTo key value = [] :=
  List.filterMap_eq_nil_iff.mpr (target.sentTo?_of_mem_arrivals value absent)

theorem sentTo_pair (target added : Target) (value defined : Value F) :
    (tuple [target, added]).sentTo key (.bundle [value, defined]) =
      target.sentTo key value ++ added.sentTo key defined := by
  simp [sentTo, arrivals, allArrivals]

mutual

/-- Where nothing is refused, an external target is sent one value for each place that it has. -/
theorem length_sentTo_of_accepted {supplies : List (Supply F)} :
    ∀ (target : Target) (value : Value F),
      (∀ arrival ∈ target.arrivals value, arrival.refusal? supplies = none) →
        (target.sentTo key value).length = target.cells.count (.external key)
  | .tuple parts, value, accepted => by
      cases value with
      | bundle components =>
          by_cases same : components.length = parts.length
          · rw [arrivals, if_pos same] at accepted
            rw [sentTo, arrivals, if_pos same]
            exact length_allArrivals_sentTo_of_accepted parts components same accepted
          · simp [arrivals, same, Arrival.refusal?] at accepted
      | _ => simp [arrivals, Arrival.refusal?] at accepted
  | .external other name hook, value, _ => by
      by_cases same : other = key <;> simp [sentTo, arrivals, Arrival.sentTo?, cells, same]
  | .discard, _, _ | .slot _ _, _, _ | .sequence _ _, _, _ | .unusable _ _, _, _ => by
      simp [sentTo, arrivals, Arrival.sentTo?, cells]

theorem length_allArrivals_sentTo_of_accepted {supplies : List (Supply F)} :
    ∀ (parts : List Target) (components : List (Value F)), components.length = parts.length →
      (∀ arrival ∈ allArrivals parts components, arrival.refusal? supplies = none) →
        ((allArrivals parts components).filterMap (Arrival.sentTo? key)).length =
          (allCells parts).count (.external key)
  | [], [], _, _ => rfl
  | part :: parts, component :: components, same, accepted => by
      rw [allArrivals, List.forall_mem_append] at accepted
      have first : (part.sentTo key component).length = part.cells.count (.external key) :=
        length_sentTo_of_accepted part component accepted.1
      have others := length_allArrivals_sentTo_of_accepted parts components
        (Nat.succ.inj same) accepted.2
      rw [allArrivals, List.filterMap_append, List.length_append, others, allCells,
        List.count_append, ← first]
      rfl
  | [], _ :: _, same, _ => by simp at same
  | _ :: _, [], same, _ => by simp at same

end

end Target

mutual

/-- What an external target is sent does not depend on whether the value is settled. -/
theorem ends_settle_sentTo (key : String) :
    ∀ (target : Target) (value : Value F) (world : World F σ),
      (settle target value).Ends world
        (fun settled _ => target.sentTo key settled = target.sentTo key value) fun _ _ => True
  | .sequence _ _, value, world => by
      rw [settle, ends_bind]
      exact Ends.of_forall (fun _ _ => rfl) fun _ _ => trivial
  | .tuple parts, value, world => by
      cases value with
      | bundle components =>
          rw [settle]
          split
          · rename_i same
            rw [ends_bind]
            refine (ends_settleAll_sentTo key parts components same world).imp ?_
            rintro settled _ ⟨length, sent⟩
            rw [ends_pure, Target.sentTo, Target.sentTo, Target.arrivals, Target.arrivals,
              if_pos length, if_pos same]
            exact sent
          · rfl
      | _ => rfl
  | .discard, _, _ | .slot _ _, _, _ | .external _ _ _, _, _ | .unusable _ _, _, _ => by
      simp only [settle, ends_pure]

theorem ends_settleAll_sentTo (key : String) :
    ∀ (parts : List Target) (components : List (Value F)),
      components.length = parts.length → ∀ world : World F σ,
        (settleAll parts components).Ends world
          (fun settled _ => settled.length = parts.length ∧
            (Target.allArrivals parts settled).filterMap (Arrival.sentTo? key) =
              (Target.allArrivals parts components).filterMap (Arrival.sentTo? key))
          fun _ _ => True
  | [], [], _, _ => ⟨rfl, rfl⟩
  | part :: parts, component :: components, same, world => by
      rw [settleAll, ends_bind]
      refine (ends_settle_sentTo key part component world).imp ?_
      intro first middle sentFirst
      rw [ends_bind]
      refine (ends_settleAll_sentTo key parts components (Nat.succ.inj same) middle).imp ?_
      rintro rest _ ⟨length, sentRest⟩
      refine ⟨congrArg Nat.succ length, ?_⟩
      rw [Target.allArrivals, Target.allArrivals, List.filterMap_append, List.filterMap_append,
        sentRest]
      exact congrArg (· ++ _) sentFirst
  | [], _ :: _, same, _ => by simp at same
  | _ :: _, [], same, _ => by simp at same

end

/-- What happens to an external target in a run: a function is called, or the target is sent a
value. -/
inductive Deed (F σ : Type) where
  | call (turn : Turn F σ)
  | delivery (value : Value F)

def Deed.turn? : Deed F σ → Option (Turn F σ)
  | .call turn => some turn
  | .delivery _ => none

def Deed.sent? : Deed F σ → Option (Value F)
  | .call _ => none
  | .delivery value => some value

/-- Deeds lead from what the target has received at first to what it has received at last. A
delivery adds its value. A call finds what has been received so far, and may leave anything. -/
def Replays (key : String) : List (Deed F σ) → List (Value F) → List (Value F) → Prop
  | [], received, last => last = received
  | .delivery value :: deeds, received, last => Replays key deeds (received ++ [value]) last
  | .call turn :: deeds, received, last =>
      turn.before.receivedBy key = received ∧ Replays key deeds (turn.after.receivedBy key) last

theorem Replays.append {deeds later : List (Deed F σ)} {received between last : List (Value F)}
    (first : Replays key deeds received between) (second : Replays key later between last) :
    Replays key (deeds ++ later) received last := by
  induction deeds generalizing received with
  | nil =>
      have same : between = received := first
      exact same ▸ second
  | cons deed rest ih =>
      cases deed with
      | call turn => exact ⟨first.1, ih first.2⟩
      | delivery value => exact ih first

theorem replays_deliveries (values received : List (Value F)) :
    Replays key (values.map (Deed.delivery (σ := σ))) received (received ++ values) := by
  induction values generalizing received with
  | nil => exact List.append_nil received
  | cons value rest ih =>
      have others := ih (received ++ [value])
      rw [List.append_assoc] at others
      exact others

/-- The deeds that lead from one state to another: the log has grown by the calls among them, and
the target has received the values that are delivered. -/
structure Recorded (key : String) (deeds : List (Deed F σ))
    (before after : World F (σ × List (Turn F σ))) : Prop where
  log : after.log = before.log ++ deeds.filterMap Deed.turn?
  replays : Replays key deeds (before.receivedBy key) (after.receivedBy key)

namespace Recorded

variable {before middle after : World F (σ × List (Turn F σ))} {deeds later : List (Deed F σ)}

theorem append (first : Recorded key deeds before middle)
    (second : Recorded key later middle after) : Recorded key (deeds ++ later) before after := by
  refine ⟨?_, first.replays.append second.replays⟩
  rw [second.log, first.log, List.filterMap_append, List.append_assoc]

theorem idle (log : after.log = before.log)
    (received : after.receivedBy key = before.receivedBy key) : Recorded key [] before after :=
  ⟨log.trans (List.append_nil _).symm, received⟩

theorem deliveries {values : List (Value F)} (log : after.log = before.log)
    (received : after.receivedBy key = before.receivedBy key ++ values) :
    Recorded key (values.map .delivery) before after := by
  refine ⟨?_, ?_⟩
  · have none : (values.map (Deed.delivery (σ := σ))).filterMap Deed.turn? = [] := by
      simp [Deed.turn?]
    rw [log, none, List.append_nil]
  · rw [received]
    exact replays_deliveries values _

end Recorded

structure Turn.Answers (turn : Turn F σ) (callback : Callback F) (value : Value F) : Prop where
  callback : callback = .function turn.body
  answer : turn.answer = .ok value

/-- The deeds at a call for an item: what the target is to be sent is delivered, one value for each
place that it has, and then the function is called. -/
def Asked (key : String) (target : Target) (sent : List (Value F)) (callback : Callback F)
    (answer : Value F) (deeds : List (Deed F σ)) : Prop :=
  sent.length = target.cells.count (.external key) ∧
    ∃ turn, deeds = sent.map .delivery ++ [.call turn] ∧ turn.Answers callback answer

/-- The deeds of a qualifier for an item, and what is left to be sent: nothing for an item that a
filter rejects, and more for one that is extended by a definition. -/
inductive Qualifier.Visit (key : String) (target : Target) : Qualifier F → List (Value F) →
    List (Deed F σ) → List (List (Value F)) → Prop
  | passes {predicate : Callback F} {sent : List (Value F)} {deeds : List (Deed F σ)}
      {verdict : Value F} (asked : Asked key target sent predicate verdict deeds)
      (truth : verdict.isTrue = true) : Visit key target (.filter predicate) sent deeds [sent]
  | rejects {predicate : Callback F} {sent : List (Value F)} {deeds : List (Deed F σ)}
      {verdict : Value F} (asked : Asked key target sent predicate verdict deeds)
      (truth : verdict.isTrue = false) : Visit key target (.filter predicate) sent deeds []
  | extended {added : Target} {thunk : Callback F} {sent : List (Value F)}
      {deeds : List (Deed F σ)} {defined : Value F}
      (asked : Asked key target sent thunk defined deeds) :
      Visit key target (.define added thunk) sent deeds [sent ++ added.sentTo key defined]

/-- The deeds of qualifiers: each qualifier is done with all items before the next one starts. -/
def Rounds (key : String) : Target → List (Qualifier F) → List (List (Value F)) →
    List (Deed F σ) → List (List (Value F)) → Prop
  | _, [], sents, deeds, left => deeds = [] ∧ left = sents
  | target, qualifier :: qualifiers, sents, deeds, left => ∃ round later between,
      deeds = round ++ later ∧ InTurn (qualifier.Visit key target) sents round between ∧
        Rounds key (qualifier.retarget target) qualifiers between later left

/-- The deeds that follow the qualifiers of a step for an item: its block is called, or the item is
captured for the steps that are left, if any are. -/
def Step.Closes (step : Step F) (key : String) (last : Bool)
    (proceeds : List (Deed F σ) → Prop) (sent : List (Value F)) (deeds : List (Deed F σ)) : Prop :=
  if step.hasBlock then ∃ result, Asked key step.target sent step.block result deeds
  else if last then deeds = []
  else sent.length = step.target.cells.count (.external key) ∧
    ∃ later, deeds = sent.map .delivery ++ later ∧ proceeds later

/-- The course of an item: its deeds at each qualifier, up to one that rejects it, and those that
follow if none does. -/
inductive Course (key : String) (closes : List (Value F) → List (Deed F σ) → Prop) :
    Target → List (Qualifier F) → List (Value F) → List (List (Deed F σ)) → Prop
  | closed {target : Target} {sent : List (Value F)} {deeds : List (Deed F σ)}
      (closing : closes sent deeds) : Course key closes target [] sent [deeds]
  | kept {target : Target} {qualifier : Qualifier F} {rest : List (Qualifier F)}
      {sent left : List (Value F)} {deeds : List (Deed F σ)} {course : List (List (Deed F σ))}
      (visit : qualifier.Visit key target sent deeds [left])
      (later : Course key closes (qualifier.retarget target) rest left course) :
      Course key closes target (qualifier :: rest) sent (deeds :: course)
  | dropped {target : Target} {qualifier : Qualifier F} {rest : List (Qualifier F)}
      {sent : List (Value F)} {deeds : List (Deed F σ)}
      (visit : qualifier.Visit key target sent deeds []) :
      Course key closes target (qualifier :: rest) sent [deeds]

def column (courses : List (List (List (Deed F σ)))) (place : Nat) : List (Deed F σ) :=
  courses.flatMap fun course => course.getD place []

def inRounds (rounds : Nat) (courses : List (List (List (Deed F σ)))) : List (Deed F σ) :=
  (List.range rounds).flatMap (column courses)

/-- The deeds of one run of a step: its source is called, and each item has a course of its own. -/
def Step.RunOf (step : Step F) (course : Value F → List (List (Deed F σ)) → Prop)
    (deeds : List (Deed F σ)) : Prop :=
  ∃ draw number items courses,
    deeds = .call draw :: inRounds (step.qualifiers.length + 1) courses ∧
    draw.Answers step.source (.listMonad number false items) ∧
    List.Forall₂ course items courses

/-- The deeds of steps that are chained. -/
def Ledger (key : String) : List (Step F) → List (Deed F σ) → Prop
  | [], _ => False
  | step :: rest, deeds => step.RunOf (fun item =>
      Course key (step.Closes key rest.isEmpty (Ledger key rest)) step.ownTarget step.qualifiers
        (step.ownTarget.sentTo key item)) deeds

theorem Qualifier.Visit.left_eq {target : Target} {qualifier : Qualifier F}
    {sent : List (Value F)} {deeds : List (Deed F σ)} {left : List (List (Value F))}
    (visit : qualifier.Visit key target sent deeds left) : left = [] ∨ ∃ more, left = [more] := by
  cases visit with
  | passes => exact Or.inr ⟨sent, rfl⟩
  | rejects => exact Or.inl rfl
  | extended => exact Or.inr ⟨_, rfl⟩

theorem inRounds_succ {courses shorter : List (List (List (Deed F σ)))}
    (shift : ∀ place, column courses (place + 1) = column shorter place) (rounds : Nat) :
    inRounds (rounds + 1) courses = column courses 0 ++ inRounds rounds shorter := by
  have later : (fun place => column courses place.succ) = column shorter := funext shift
  rw [inRounds, List.range_succ_eq_map, List.flatMap_cons, List.flatMap_map, later, inRounds]

section Courses

variable {closes : List (Value F) → List (Deed F σ) → Prop} {target : Target}

/-- What follows the qualifiers, item by item, is the last stretch of each course. -/
theorem InTurn.exists_closed {sents : List (List (Value F))} {deeds : List (Deed F σ)}
    {results : List (Value F)}
    (closing : InTurn (fun sent part _ => closes sent part) sents deeds results) :
    ∃ courses, deeds = column courses 0 ∧
      List.Forall₂ (Course key closes target []) sents courses := by
  induction closing with
  | nil => exact ⟨[], rfl, .nil⟩
  | @cons _ _ turns _ _ _ first _ ih =>
      obtain ⟨courses, rfl, each⟩ := ih
      exact ⟨[turns] :: courses, rfl, .cons (.closed first) each⟩

theorem InTurn.exists_visited {qualifier : Qualifier F} {rest : List (Qualifier F)}
    {sents between : List (List (Value F))} {deeds : List (Deed F σ)}
    {shorter : List (List (List (Deed F σ)))}
    (round : InTurn (qualifier.Visit key target) sents deeds between)
    (later : List.Forall₂ (Course key closes (qualifier.retarget target) rest) between shorter) :
    ∃ courses, deeds = column courses 0 ∧
      (∀ place, column courses (place + 1) = column shorter place) ∧
      List.Forall₂ (Course key closes target (qualifier :: rest)) sents courses := by
  induction round generalizing shorter with
  | nil =>
      cases later
      exact ⟨[], rfl, fun _ => rfl, .nil⟩
  | @cons _ _ turns _ _ _ first _ ih =>
      rcases first.left_eq with rfl | ⟨more, rfl⟩
      · obtain ⟨courses, rfl, shift, each⟩ := ih later
        exact ⟨[turns] :: courses, rfl, shift, .cons (.dropped first) each⟩
      · cases later with
        | cons onward others =>
            rename_i course shorter
            obtain ⟨courses, rfl, shift, each⟩ := ih others
            refine ⟨(turns :: course) :: courses, rfl, ?_, .cons (.kept first onward) each⟩
            intro place
            have same := shift place
            rw [column] at same ⊢
            rw [List.flatMap_cons, same]
            rfl

/-- The rounds of qualifiers and what follows them are courses, one for each item, round by
round. -/
theorem Rounds.exists_courses {qualifiers : List (Qualifier F)}
    {sents left : List (List (Value F))} {deeds last : List (Deed F σ)}
    {results : List (Value F)} (rounds : Rounds key target qualifiers sents deeds left)
    (closing : InTurn (fun sent part _ => closes sent part) left last results) :
    ∃ courses, deeds ++ last = inRounds (qualifiers.length + 1) courses ∧
      List.Forall₂ (Course key closes target qualifiers) sents courses := by
  induction qualifiers generalizing target sents deeds with
  | nil =>
      obtain ⟨rfl, rfl⟩ := rounds
      obtain ⟨courses, rfl, each⟩ := closing.exists_closed
      refine ⟨courses, ?_, each⟩
      simp [inRounds, List.range_succ]
  | cons qualifier rest ih =>
      obtain ⟨round, later, between, rfl, first, others⟩ := rounds
      obtain ⟨shorter, same, each⟩ := ih others
      obtain ⟨courses, rfl, shift, whole⟩ := first.exists_visited each
      refine ⟨courses, ?_, whole⟩
      rw [List.length_cons, inRounds_succ shift, ← same, List.append_assoc]

theorem Rounds.ledger {step : Step F} {left : List (Step F)} {draw : Turn F σ}
    {drawn : Option Nat} {items kept results : List (Value F)} {deeds last : List (Deed F σ)}
    (rounds : Rounds key step.ownTarget step.qualifiers (items.map (step.ownTarget.sentTo key))
      deeds (kept.map (step.target.sentTo key)))
    (answers : draw.Answers step.source (.listMonad drawn false items))
    (closing : InTurn (fun item part _ =>
      step.Closes key left.isEmpty (Ledger key left) (step.target.sentTo key item) part)
      kept last results) :
    Ledger key (step :: left) (.call draw :: deeds ++ last) := by
  have closes : InTurn (fun sent part _ =>
      step.Closes key left.isEmpty (Ledger key left) sent part)
      (kept.map (step.target.sentTo key)) last (results.map id) :=
    closing.map fun _ _ _ closed => closed
  obtain ⟨courses, inOrder, each⟩ := rounds.exists_courses closes
  refine ⟨draw, drawn, items, courses, ?_, answers, List.forall₂_map_left_iff.mp each⟩
  rw [List.cons_append, inOrder]

end Courses

section Deposits

variable {now : World F (σ × List (Turn F σ))} {refs : List StepRef}
  {start : World F (σ × List (Turn F σ))}

/-- These deeds were done, and the steps are those of the start. -/
structure Onward (key : String) (refs : List StepRef) (start : World F (σ × List (Turn F σ)))
    (deeds : List (Deed F σ)) (before after : World F (σ × List (Turn F σ))) : Prop where
  recorded : Recorded key deeds before after
  same : SameSteps refs start after

/-- Chaining steps gives a list, after the deeds of their ledger. -/
def Booked (key : String) (refs : List StepRef) (start : World F (σ × List (Turn F σ)))
    (left : List (Step F)) (now : World F (σ × List (Turn F σ))) (value : Value F)
    (after : World F (σ × List (Turn F σ))) : Prop :=
  (∃ number results, value = .listMonad number false results) ∧
    ∃ deeds, Onward key refs start deeds now after ∧ Ledger key left deeds

theorem Onward.append {deeds later : List (Deed F σ)}
    {before middle after : World F (σ × List (Turn F σ))}
    (first : Onward key refs start deeds before middle)
    (second : Onward key refs start later middle after) :
    Onward key refs start (deeds ++ later) before after :=
  ⟨first.recorded.append second.recorded, second.same⟩

theorem ends_deposit_onward (key : String) (target : Target) (value : Value F)
    (same : SameSteps refs start now) :
    (deposit target value).Ends now
      (fun _ after =>
        Onward key refs start ((target.sentTo key value).map .delivery) now after ∧
        (target.sentTo key value).length = target.cells.count (.external key))
      fun error _ => error.IsCapture := by
  have fails := ends_deposit_isCapture target value now
  rcases Arrival.exists_first_refused now.supplies (target.arrivals value) with
    accepted | ⟨earlier, failing, later, error, split, accepted, refused⟩
  · obtain ⟨after, ended, took⟩ := outcome_deposit_of_accepted accepted
    have steps : SameSteps refs start after := by
      intro ref member
      rw [← same ref member, World.step?, World.step?, World.steps, World.steps, took.contexts]
    have log : after.log = now.log := congrArg (·.2) took.client
    unfold Ends
    rw [ended]
    exact ⟨⟨.deliveries log (took.received key), steps⟩,
      Target.length_sentTo_of_accepted target value accepted⟩
  · obtain ⟨after, ended, -⟩ := outcome_deposit_of_refused split accepted refused
    unfold Ends at fails ⊢
    rw [ended] at fails ⊢
    exact fails

theorem ends_settle_onward (key : String) (target : Target) (value : Value F)
    (same : SameSteps refs start now) :
    (settle target value).Ends now
      (fun settled after => target.sentTo key settled = target.sentTo key value ∧
        Onward key refs start [] now after)
      fun error _ => error.IsCapture := by
  have ignores : IgnoresSupplies fun world : World F (σ × List (Turn F σ)) =>
      SameSteps refs start world ∧ world.log = now.log ∧
        world.receivedBy key = now.receivedBy key :=
    fun _ _ holds => holds
  have unchanged := settle_preserves ignores target value now ⟨same, rfl, rfl⟩
  have sends : (settle target value).Ends now
      (fun settled _ => target.sentTo key settled = target.sentTo key value) fun _ _ => True :=
    ends_settle_sentTo key target value now
  refine ((unchanged.and sends).and (ends_settle_isCapture target value now)).mono ?_
    fun _ _ failed => failed.2
  rintro settled after ⟨⟨⟨steps, log, received⟩, sent⟩, -⟩
  exact ⟨sent, .idle log received, steps⟩

theorem ends_settleAndDeposit_onward (key : String) (target : Target) (value : Value F)
    (same : SameSteps refs start now) :
    (settleAndDeposit target value).Ends now
      (fun settled after =>
        Onward key refs start ((target.sentTo key value).map .delivery) now after ∧
        target.sentTo key settled = target.sentTo key value ∧
        (target.sentTo key value).length = target.cells.count (.external key))
      fun error _ => error.IsCapture := by
  rw [settleAndDeposit, ends_bind]
  refine (ends_settle_onward key target value same).imp ?_
  rintro settled middle ⟨sent, settling⟩
  rw [ends_bind]
  refine (ends_deposit_onward key target settled settling.same).imp ?_
  rintro _ after ⟨depositing, length⟩
  rw [sent] at depositing length
  exact ⟨settling.append depositing, sent, length⟩

end Deposits

section Calls

variable {call : F → Option (Value F) → Action F σ (Value F)} {refs : List StepRef}
  {steps : List (Step F)} {start now : World F (σ × List (Turn F σ))} {target : Target}
  {failure : Error → World F (σ × List (Turn F σ)) → Prop}

theorem runs_call_onward (key : String) {callback : Callback F}
    (callable : ∃ body, callback = .function body) (argument : Option (Value F))
    (same : SameSteps refs start now) :
    (callback.call (.standard (observing call)) argument).Runs
      (Turn.Regular Value.IsListMonad refs steps) now
      (fun value after => ∃ turn, Onward key refs start [.call turn] now after ∧
        turn.Answers callback value ∧ turn.argument = argument ∧
        turn.Regular Value.IsListMonad refs steps)
      failure := by
  obtain ⟨body, rfl⟩ := callable
  refine (runs_call (fun _ regular => regular.answered) body argument now).imp ?_
  rintro value after ⟨turn, leads, regular⟩
  have found : turn.before.receivedBy key = now.receivedBy key := by
    rw [leads.before]
    rfl
  have stays : after.receivedBy key = turn.after.receivedBy key := by
    rw [leads.after]
    rfl
  refine ⟨turn, ⟨⟨leads.log, found, stays⟩, leads.sameSteps regular.unamended same⟩, ?_,
    leads.argument, regular⟩
  exact ⟨by rw [leads.body], leads.answer⟩

theorem runs_asked {sent : List (Value F)} {middle : World F (σ × List (Turn F σ))}
    (deposited : Onward key refs start (sent.map .delivery) now middle)
    (full : sent.length = target.cells.count (.external key)) {callback : Callback F}
    (callable : ∃ body, callback = .function body) (argument : Option (Value F)) :
    (callback.call (.standard (observing call)) argument).Runs
      (Turn.Regular Value.IsListMonad refs steps) middle
      (fun value after => ∃ deeds, Onward key refs start deeds now after ∧
        Asked key target sent callback value deeds)
      failure := by
  refine (runs_call_onward key callable argument deposited.same).imp ?_
  rintro value after ⟨turn, called, answers, -⟩
  exact ⟨_, deposited.append called, full, turn, rfl, answers⟩

theorem runs_qualifyItem_visit (key : String) (target : Target) {qualifier : Qualifier F}
    (callable : ∃ body, qualifier.callback = .function body) (item : Value F)
    (same : SameSteps refs start now) :
    (qualifyItem (.standard (observing call)) target qualifier item).Runs
      (Turn.Regular Value.IsListMonad refs steps) now
      (fun left after => ∃ deeds, Onward key refs start deeds now after ∧
        qualifier.Visit key target (target.sentTo key item) deeds
          (left.map ((qualifier.retarget target).sentTo key)))
      fun error _ => error.IsCapture := by
  cases qualifier with
  | filter predicate =>
      rw [qualifyItem, testItem, bind_assoc]
      refine runs_bind_of_ends (ends_deposit_onward key target item same) ?_
      rintro _ middle ⟨deposited, full⟩
      refine (runs_asked deposited full callable (some item)).bind_pure ?_
      rintro verdict after ⟨deeds, onward, asked⟩
      refine ⟨deeds, onward, ?_⟩
      cases truth : verdict.isTrue with
      | true => exact .passes asked truth
      | false => exact .rejects asked truth
  | define added thunk =>
      rw [qualifyItem, pairItem, bind_assoc]
      refine runs_bind_of_ends (ends_settleAndDeposit_onward key target item same) ?_
      rintro settled middle ⟨deposited, sent, full⟩
      have pairing : ∀ defined, Ordinary (observing call)
          (settle added defined >>= fun bound => pure [Value.bundle [settled, bound]]) :=
        fun defined => (ordinary_settle added defined).bind fun _ => ordinary_pure _
      simp only [bind_assoc, pure_bind]
      refine (runs_asked deposited full callable none).bind
        (fun defined => (pairing defined).lengthens) ?_
      rintro defined reached ⟨deeds, onward, asked⟩
      refine runs_bind_of_ends (ends_settle_onward key added defined onward.same) ?_
      rintro bound after ⟨kept, settling⟩
      have last := onward.append settling
      rw [List.append_nil] at last
      refine runs_pure _ ⟨deeds, last, ?_⟩
      rw [List.map_singleton, Qualifier.retarget, Target.sentTo_pair, sent, kept]
      exact .extended asked

theorem runs_inTurn {act : Value F → Action F (σ × List (Turn F σ)) (List (Value F))}
    {relation : Value F → List (Deed F σ) → List (Value F) → Prop} {items : List (Value F)}
    (lengthens : ∀ item, Lengthens (act item))
    (each : ∀ item, ∀ reached, SameSteps refs start reached →
      (act item).Runs (Turn.Regular Value.IsListMonad refs steps) reached
        (fun values after => ∃ deeds, Onward key refs start deeds reached after ∧
          relation item deeds values) failure)
    (same : SameSteps refs start now) :
    (doInTurn act items).Runs (Turn.Regular Value.IsListMonad refs steps) now
      (fun values after => ∃ deeds, Onward key refs start deeds now after ∧
        InTurn relation items deeds values) failure := by
  have loop : (doInTurn act items).Runs (Turn.Regular Value.IsListMonad refs steps) now
      (fun values after =>
        (∃ deeds, Recorded key deeds now after ∧ InTurn relation items deeds values) ∧
        (∀ value ∈ values, True) ∧ SameSteps refs start after) failure := by
    refine runs_doInTurn_of (fun _ => .idle rfl rfl) (fun _ _ _ _ _ first later =>
      first.append later) lengthens ?_ same
    intro item _ reached holds
    refine (each item reached holds).imp ?_
    rintro values after ⟨deeds, onward, related⟩
    exact ⟨⟨deeds, onward.recorded, related⟩, fun _ _ => trivial, onward.same⟩
  refine loop.imp ?_
  rintro values after ⟨⟨deeds, recorded, inTurn⟩, -, reached⟩
  exact ⟨deeds, ⟨recorded, reached⟩, inTurn⟩

end Calls

theorem inTurn_nil_of_forall {τ : Type} {each : Value F → List τ → List (Value F) → Prop}
    (nothing : ∀ item, each item [] [item]) (items : List (Value F)) :
    InTurn each items [] items := by
  induction items with
  | nil => exact .nil
  | cons item rest ih =>
      have whole : InTurn each (item :: rest) ([] ++ []) ([item] ++ rest) := .cons (nothing item) ih
      exact whole

/-- What is done with all items before a qualifier: they are settled for a filter, where its target
has a sequence. -/
def Qualifier.prepare (target : Target) :
    Qualifier F → List (Value F) → Action F σ (List (Value F))
  | .filter _, items => if target.hasSequence then collect (settle target) items else pure items
  | .define _ _, items => pure items

theorem qualifyItems_cons_eq_prepare (meaning : Meaning F σ) (target : Target)
    (qualifier : Qualifier F) (rest : List (Qualifier F)) (items : List (Value F)) :
    qualifyItems meaning target (qualifier :: rest) items =
      qualifier.prepare target items >>= fun prepared =>
        doInTurn (qualifyItem meaning target qualifier) prepared >>=
          qualifyItems meaning (qualifier.retarget target) rest := by
  cases qualifier with
  | filter predicate =>
      cases sequence : target.hasSequence <;>
        simp [qualifyItems, filterItems, Qualifier.prepare, Qualifier.retarget, sequence,
          retain_eq_doInTurn]
  | define added thunk =>
      rw [qualifyItems, collect_eq_doInTurn, Qualifier.prepare, pure_bind]
      rfl

section Steps

variable {call : F → Option (Value F) → Action F σ (Value F)} {refs : List StepRef}
  {steps : List (Step F)} {start now : World F (σ × List (Turn F σ))}

theorem ends_prepare_onward (key : String) (target : Target) (qualifier : Qualifier F)
    (items : List (Value F)) (same : SameSteps refs start now) :
    (qualifier.prepare target items).Ends now
      (fun prepared after =>
        prepared.map (target.sentTo key) = items.map (target.sentTo key) ∧
        Onward key refs start [] now after)
      fun error _ => error.IsCapture := by
  have idle : Onward key refs start [] now now := ⟨.idle rfl rfl, same⟩
  have settled : (collect (settle target) items).Ends now
      (fun prepared after =>
        List.Forall₂ (fun item value => target.sentTo key value = target.sentTo key item)
          items prepared ∧
        Onward key refs start [] now after)
      fun error _ => error.IsCapture := by
    refine ends_collect ?_ idle
    intro item _ reached onward
    refine (ends_settle_onward key target item onward.same).imp ?_
    rintro value after ⟨sent, settling⟩
    exact ⟨sent, onward.append settling⟩
  cases qualifier with
  | define added thunk => exact ⟨rfl, idle⟩
  | filter predicate =>
      rw [Qualifier.prepare]
      split
      · refine settled.imp ?_
        rintro prepared after ⟨sends, onward⟩
        refine ⟨?_, onward⟩
        clear settled
        induction sends with
        | nil => rfl
        | cons first _ ih => rw [List.map_cons, List.map_cons, first, ih]
      · exact ⟨rfl, idle⟩

theorem runs_qualifyItems_rounds (key : String) {qualifiers : List (Qualifier F)}
    (callable : ∀ qualifier ∈ qualifiers, ∃ body, qualifier.callback = .function body)
    (target : Target) (items : List (Value F)) (same : SameSteps refs start now) :
    (qualifyItems (.standard (observing call)) target qualifiers items).Runs
      (Turn.Regular Value.IsListMonad refs steps) now
      (fun kept after => ∃ deeds, Onward key refs start deeds now after ∧
        Rounds key target qualifiers (items.map (target.sentTo key)) deeds
          (kept.map ((qualifiers.foldl Qualifier.retarget target).sentTo key)))
      fun error _ => error.IsCapture := by
  induction qualifiers generalizing target items now with
  | nil => exact runs_pure items ⟨[], ⟨.idle rfl rfl, same⟩, rfl, rfl⟩
  | cons qualifier rest ih =>
      rw [List.forall_mem_cons] at callable
      rw [qualifyItems_cons_eq_prepare]
      refine runs_bind_of_ends (ends_prepare_onward key target qualifier items same) ?_
      rintro prepared begun ⟨sends, idle⟩
      have round : (doInTurn (qualifyItem (.standard (observing call)) target qualifier)
          prepared).Runs (Turn.Regular Value.IsListMonad refs steps) begun _ _ :=
        runs_inTurn (fun item => (ordinary_qualifyItem target qualifier item).lengthens)
          (fun item _ reached => runs_qualifyItem_visit key target callable.1 item reached)
          idle.same
      refine round.bind (fun _ => (ordinary_qualifyItems _ rest _).lengthens) ?_
      rintro kept middle ⟨deeds, onward, inTurn⟩
      refine (ih callable.2 (qualifier.retarget target) kept onward.same).imp ?_
      rintro last after ⟨more, further, rounds⟩
      refine ⟨deeds ++ more, idle.append (onward.append further), deeds, more, _, rfl, ?_, rounds⟩
      rw [← sends]
      exact inTurn.map fun _ _ _ visit => visit

theorem runs_generate_rounds (key : String) {step : Step F} (among : step ∈ steps)
    (callable : step.Callable) (index : Nat) (same : SameSteps refs start now) :
    (step.generate (.standard (observing call)) index).Runs
      (Turn.Regular Value.IsListMonad refs steps) now
      (fun value after => ∃ number kept, value = .listMonad number false kept ∧
        ∃ draw drawn items deeds, Onward key refs start (.call draw :: deeds) now after ∧
          draw.Answers step.source (.listMonad drawn false items) ∧
          Rounds key step.ownTarget step.qualifiers (items.map (step.ownTarget.sentTo key)) deeds
            (kept.map (step.target.sentTo key)))
      fun error _ => error.IsCapture := by
  rw [Step.generate]
  refine (runs_call_onward key callable.source none same).bind
    (fun value => (ordinary_applyQualifiers index _ _ value).lengthens) ?_
  rintro value middle ⟨draw, called, answers, argument, regular⟩
  obtain ⟨_, answer, drawn, items, rfl⟩ :=
    regular.sources step among answers.callback argument
  have given := answers.answer
  rw [answer, Except.ok.injEq] at given
  subst given
  rw [applyQualifiers_listMonad]
  refine (runs_qualifyItems_rounds key callable.qualifiers step.ownTarget items
    called.same).bind_pure ?_
  rintro kept after ⟨deeds, onward, rounds⟩
  exact ⟨_, kept, rfl, draw, drawn, items, deeds, called.append onward, answers, rounds⟩

theorem runs_concludeItem_closes {step : Step F} (carried : step.hasBlock = true)
    (callable : ∃ body, step.block = .function body) {last : Bool}
    {proceeds : List (Deed F σ) → Prop} (item : Value F) (same : SameSteps refs start now) :
    (concludeItem (.standard (observing call)) step.target step.block item >>= fun result =>
      pure [result]).Runs (Turn.Regular Value.IsListMonad refs steps) now
      (fun _ after => ∃ deeds, Onward key refs start deeds now after ∧
        step.Closes key last proceeds (step.target.sentTo key item) deeds)
      fun error _ => error.IsCapture := by
  rw [concludeItem, bind_assoc]
  refine runs_bind_of_ends (ends_settleAndDeposit_onward key step.target item same) ?_
  rintro settled middle ⟨deposited, -, full⟩
  refine (runs_asked deposited full callable (some settled)).bind_pure ?_
  rintro result after ⟨deeds, onward, asked⟩
  refine ⟨deeds, onward, ?_⟩
  rw [Step.Closes, if_pos carried]
  exact ⟨result, asked⟩

theorem runs_proceedItem_closes {step : Step F} (open_ : step.hasBlock = false)
    {rest : List StepRef} {left : List (Step F)} (more : left.isEmpty = false) {index : Nat}
    (chained : ∀ reached, SameSteps refs start reached →
      (chainFrom (.standard (observing call)) rest index).Runs
        (Turn.Regular Value.IsListMonad refs steps) reached (Booked key refs start left reached)
        fun error _ => error.IsCapture)
    (item : Value F) (same : SameSteps refs start now) :
    ((Continuation.proceed step.target rest index).apply (.standard (observing call)) item >>=
      listItems).Runs (Turn.Regular Value.IsListMonad refs steps) now
      (fun _ after => ∃ deeds, Onward key refs start deeds now after ∧
        step.Closes key left.isEmpty (Ledger key left) (step.target.sentTo key item) deeds)
      fun error _ => error.IsCapture := by
  rw [Continuation.apply, bind_assoc]
  refine runs_bind_of_ends (ends_settleAndDeposit_onward key step.target item same) ?_
  rintro settled middle ⟨deposited, -, full⟩
  refine (chained middle deposited.same).bind (fun value _ => listItems_preserves value) ?_
  rintro value after ⟨⟨number, results, rfl⟩, deeds, onward, ledger⟩
  refine runs_pure results ⟨_, deposited.append onward, ?_⟩
  rw [Step.Closes, if_neg (by simp [open_]), if_neg (by simp [more])]
  exact ⟨full, deeds, rfl, ledger⟩

theorem runs_finishItems_closes {step : Step F} {rest : List StepRef} {left : List (Step F)}
    (same : left.isEmpty = rest.isEmpty) (callable : step.Callable) {index : Nat}
    (chained : rest ≠ [] → ∀ reached, SameSteps refs start reached →
      (chainFrom (.standard (observing call)) rest (index + 1)).Runs
        (Turn.Regular Value.IsListMonad refs steps) reached (Booked key refs start left reached)
        fun error _ => error.IsCapture)
    (items : List (Value F)) (sits : SameSteps refs start now) :
    (finishItems (.standard (observing call)) listItems step step rest index items).Runs
      (Turn.Regular Value.IsListMonad refs steps) now
      (fun results after => ∃ deeds, Onward key refs start deeds now after ∧
        InTurn (fun item part _ =>
          step.Closes key left.isEmpty (Ledger key left) (step.target.sentTo key item) part)
          items deeds results)
      fun error _ => error.IsCapture := by
  cases carried : step.hasBlock with
  | true =>
      simp only [finishItems, carried, ↓reduceIte]
      rw [collect_eq_doInTurn]
      exact runs_inTurn
        (fun item => ((ordinary_concludeItem step.target step.block item).bind fun _ =>
          ordinary_pure _).lengthens)
        (fun item _ reached => runs_concludeItem_closes carried (callable.block carried) item
          reached)
        sits
  | false =>
      cases rest with
      | nil =>
          have last : left.isEmpty = true := same
          have nothing : ∀ item : Value F, step.Closes key left.isEmpty (Ledger key left)
              (step.target.sentTo key item) ([] : List (Deed F σ)) := by
            intro item
            rw [Step.Closes, if_neg (by simp [carried]), if_pos last]
          simp only [finishItems, carried, Bool.false_eq_true, ↓reduceIte]
          refine runs_pure items ⟨[], ⟨.idle rfl rfl, sits⟩, ?_⟩
          exact inTurn_nil_of_forall nothing items
      | cons next others =>
          simp only [finishItems, carried, Bool.false_eq_true, ↓reduceIte]
          rw [gather_eq_doInTurn]
          exact runs_inTurn
            (fun item => ((ordinary_apply _ item).bind ordinary_listItems).lengthens)
            (fun item _ reached => runs_proceedItem_closes carried same
              (chained (List.cons_ne_nil next others)) item reached)
            sits

theorem runs_chainFrom_ledger (key : String) {rest : List StepRef} {left : List (Step F)}
    (leads : start.LeadsTo rest left) (nonempty : left ≠ []) (listed : rest ⊆ refs)
    (among : ∀ step ∈ left, step ∈ steps) (callable : ∀ step ∈ left, step.Callable) (index : Nat)
    (same : SameSteps refs start now) :
    (chainFrom (.standard (observing call)) rest index).Runs
      (Turn.Regular Value.IsListMonad refs steps) now (Booked key refs start left now)
      fun error _ => error.IsCapture := by
  induction leads generalizing index now with
  | nil => exact absurd rfl nonempty
  | @cons ref step rest left found others ih =>
      rw [List.cons_subset] at listed
      rw [List.forall_mem_cons] at among callable
      have current : ∀ {reached}, SameSteps refs start reached →
          (currentStep ref).Ends reached (fun current after => step = current ∧ reached = after)
            fun error _ => error.IsCapture :=
        fun sits => ends_currentStep ((sits ref listed.1).trans found)
      have finishing : ∀ current value, Ordinary (observing call)
          (finishValue (.standard (observing call)) step current rest index value) :=
        fun current value => ordinary_finishValue step current rest index value
      have empty : left.isEmpty = rest.isEmpty := by cases others <;> rfl
      rw [chainFrom_cons]
      refine runs_bind_of_ends (current same) ?_
      rintro _ _ ⟨rfl, rfl⟩
      refine (runs_generate_rounds key among.1 callable.1 _ same).bind
        (fun value => ((ordinary_requireMonadLike _ value).bind fun _ =>
          (ordinary_currentStep ref).bind fun current => finishing current value).lengthens) ?_
      rintro _ middle ⟨number, kept, rfl, draw, drawn, items, deeds, onward, answers, rounds⟩
      rw [requireMonadLike_listMonad, pure_bind]
      refine runs_bind_of_ends (current onward.same) ?_
      rintro _ _ ⟨rfl, rfl⟩
      rw [finishValue_listMonad]
      have chained : rest ≠ [] → ∀ reached, SameSteps refs start reached →
          (chainFrom (.standard (observing call)) rest (index + 1)).Runs
            (Turn.Regular Value.IsListMonad refs steps) reached
            (Booked key refs start left reached) fun error _ => error.IsCapture := by
        intro more reached sits
        refine ih ?_ listed.2 among.2 callable.2 (index + 1) sits
        rintro rfl
        cases others
        exact more rfl
      refine (runs_finishItems_closes empty callable.1 chained kept onward.same).bind_pure ?_
      rintro results after ⟨last, finished, closing⟩
      exact ⟨⟨_, results, rfl⟩, _, onward.append finished, rounds.ledger answers closing⟩

end Steps

/-- Chaining steps over lists gives a list after the deeds of their ledger, unless something cannot
be captured. The functions may do anything else, as long as they are answered and leave the steps
as they are. -/
theorem ledger_of_chainSteps {call : F → Option (Value F) → Action F σ (Value F)}
    {refs : List StepRef} {steps : List (Step F)} {start : World F σ} (key : String)
    (leads : start.LeadsTo refs steps) (nonempty : steps ≠ [])
    (blocks : misplacedBlock? steps = none) (callable : ∀ step ∈ steps, step.Callable)
    (regular : ∀ turn ∈
      ((chainSteps (.standard (observing call)) refs).outcome (start.withLog [])).2.log,
      turn.Regular Value.IsListMonad refs steps)
    (captures : ∀ error,
      ((chainSteps (.standard (observing call)) refs).outcome (start.withLog [])).1 =
        .error error → ¬ error.IsCapture) :
    ∃ number results after deeds,
      (chainSteps (.standard (observing call)) refs).outcome (start.withLog []) =
        (.ok (.listMonad number false results), after) ∧
      Recorded key deeds (start.withLog []) after ∧ Ledger key steps deeds := by
  have begun : (start.withLog ([] : List (Turn F σ))).LeadsTo refs steps := leads
  rw [outcome_chainSteps begun nonempty blocks] at regular captures ⊢
  have runs : (chainFrom (.standard (observing call)) refs 0).Runs
      (Turn.Regular Value.IsListMonad refs steps) (start.withLog []) _
      fun error _ => error.IsCapture :=
    runs_chainFrom_ledger key begun nonempty (List.Subset.refl refs) (fun _ member => member)
      callable 0 fun _ _ => rfl
  unfold Runs Ends at runs
  rcases reached : (chainFrom (.standard (observing call)) refs 0).outcome (start.withLog []) with
    ⟨error | value, after⟩
  · rw [reached] at runs regular captures
    exact absurd (runs regular) (captures error rfl)
  · rw [reached] at runs regular
    obtain ⟨⟨number, results, rfl⟩, deeds, onward, ledger⟩ := runs regular
    exact ⟨number, results, after, deeds, rfl, onward.recorded, ledger⟩

end Bindery
